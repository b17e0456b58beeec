import UnixV6pp.User.Malloc

/-!
# The list of block headers

## Main definitions

* `Headers` — the list is linked and in order, and no two blocks overlap.

## Main results

* `Headers.insert`, `Headers.unlink` — what `malloc` and `free` do to the list.
* `Headers.place_spec`, `Headers.search_spec` — what their loops find.
* `expand_spec` — how far the heap grows, with the overflows of the code.
-/

namespace UnixV6pp
namespace Heap

open Words Links

/-- The blocks `hs` lie between `head` and `stop`, in the order of their addresses. -/
structure Headers (mem : ℤ → ℤ) (head stop : ℤ) (hs : List ℤ) : Prop where
  chain : Chain (next mem) (some head) hs
  pos : ∀ a ∈ hs, 0 < a
  aligned : ∀ a ∈ hs, a % 8 = 0
  size_le : ∀ a ∈ hs, 8 ≤ mem a
  size_aligned : ∀ a ∈ hs, mem a % 8 = 0
  end_le : ∀ a ∈ hs, a + mem a ≤ stop
  apart : hs.Pairwise fun a b => a + mem a ≤ b

variable {mem mem' : ℤ → ℤ} {head stop stop' a b t : ℤ} {hs l r : List ℤ}

theorem next_eq_some (h : nlink mem a ≠ 0) : next mem a = some (nlink mem a) := if_neg h

theorem next_eq_none (h : nlink mem a = 0) : next mem a = none := if_pos h

theorem nlink_of_next (h : next mem a = some b) : nlink mem a = b ∧ nlink mem a ≠ 0 := by
  unfold next at h
  split at h
  · cases h
  · next hne => exact ⟨Option.some.inj h, hne⟩

theorem nlink_of_next_none (h : next mem a = none) : nlink mem a = 0 := by
  by_contra hne
  rw [next_eq_some hne] at h
  cases h

namespace Headers

theorem head_mem (h : Headers mem head stop hs) : ∃ r, hs = head :: r := by
  have hchain := h.chain
  rcases hs with _ | ⟨a, r⟩
  · cases hchain
  · rcases hchain with ⟨hhead, -⟩
    exact ⟨r, by rw [Option.some.inj hhead]⟩

/-- Only the words of the headers matter. -/
theorem congr (h : Headers mem head stop hs) (hstop : ∀ a ∈ hs, a + mem a ≤ stop')
    (hmem : ∀ a ∈ hs, mem' a = mem a ∧ nlink mem' a = nlink mem a) :
    Headers mem' head stop' hs where
  chain := h.chain.congr fun a ha => by simp only [next, (hmem a ha).2]
  pos := h.pos
  aligned := h.aligned
  size_le a ha := by rw [(hmem a ha).1]; exact h.size_le a ha
  size_aligned a ha := by rw [(hmem a ha).1]; exact h.size_aligned a ha
  end_le a ha := by rw [(hmem a ha).1]; exact hstop a ha
  apart := h.apart.imp_of_mem fun {a _} ha _ hab => by rw [(hmem a ha).1]; exact hab

/-- Around a header: those before it end before it, those behind it begin behind it. -/
theorem around (h : Headers mem head stop (l ++ a :: r)) :
    (∀ x ∈ l, x + mem x ≤ a) ∧ ∀ x ∈ r, a + mem a ≤ x := by
  rcases List.pairwise_append.mp h.apart with ⟨-, hr, hlr⟩
  exact ⟨fun x hx => hlr x hx a List.mem_cons_self, (List.pairwise_cons.mp hr).1⟩

theorem nodup (h : Headers mem head stop hs) : hs.Nodup := by
  refine h.apart.imp_of_mem fun {a b} ha _ hab => ?_
  have := h.size_le a ha
  omega

/-- **A new header behind `a`**, where `a` ends. -/
theorem insert (h : Headers mem head stop (l ++ a :: r)) {size : ℤ} (ht : t = a + mem a)
    (hsize : 8 ≤ size ∧ size % 8 = 0) (hstop : t + size ≤ stop')
    (hr : ∀ x ∈ r, t + size ≤ x ∧ x + mem x ≤ stop')
    (hsz : mem' t = size) (hnt : nlink mem' t = nlink mem a) (hna : nlink mem' a = t)
    (hother : ∀ x, x ≠ t → x ≠ t + 4 → x ≠ a + 4 → mem' x = mem x) :
    Headers mem' head stop' (l ++ a :: t :: r) := by
  have ha : a ∈ l ++ a :: r := by simp
  have hpos := h.pos a ha
  have hal := h.aligned a ha
  have hle := h.size_le a ha
  have hmod := h.size_aligned a ha
  rcases h.around with ⟨hbefore, hbehind⟩
  -- no word of an old header is written, but for the link of `a`
  have hword : ∀ x ∈ l ++ a :: r, mem' x = mem x := by
    intro x hx
    have hxa := h.aligned x hx
    refine hother x ?_ (by omega) (by omega)
    rintro rfl
    rcases List.mem_append.mp hx with hx' | hx'
    · have := hbefore _ hx'
      have := h.size_le _ hx
      omega
    · rcases List.mem_cons.mp hx' with hx' | hx'
      · omega
      · have := (hr _ hx').1
        omega
  have hlink : ∀ x ∈ l ++ r, nlink mem' x = nlink mem x := by
    intro x hx
    have hxmem : x ∈ l ++ a :: r := by
      rcases List.mem_append.mp hx with hx | hx <;> simp [hx]
    have hxa := h.aligned x hxmem
    have hne : x ≠ a ∧ x ≠ t := by
      rcases List.mem_append.mp hx with hx' | hx'
      · have := hbefore _ hx'
        have := h.size_le _ hxmem
        omega
      · have := (hr _ hx').1
        omega
    exact hother (x + 4) (by omega) (by omega) (by omega)
  have hlnext : ∀ x ∈ l, next mem' x = next mem x := fun x hx => by
    simp only [next, hlink x (List.mem_append_left r hx)]
  have hrnext : ∀ x ∈ r, next mem' x = next mem x := fun x hx => by
    simp only [next, hlink x (List.mem_append_right l hx)]
  have hmem : ∀ {x}, x ∈ l ++ a :: t :: r → x = t ∨ x ∈ l ++ a :: r := by
    intro x hx
    simp only [List.mem_append, List.mem_cons] at hx ⊢
    tauto
  refine ⟨?_, ?_, ?_, ?_, ?_, ?_, ?_⟩
  · refine h.chain.insert ?_ ?_ hlnext hrnext
    · rw [next_eq_some (by omega), hna]
    · simp only [next, hnt]
  · intro x hx
    rcases hmem hx with rfl | hx
    · omega
    · exact h.pos x hx
  · intro x hx
    rcases hmem hx with rfl | hx
    · omega
    · exact h.aligned x hx
  · intro x hx
    rcases hmem hx with rfl | hx
    · omega
    · rw [hword x hx]
      exact h.size_le x hx
  · intro x hx
    rcases hmem hx with rfl | hx
    · omega
    · rw [hword x hx]
      exact h.size_aligned x hx
  · intro x hx
    rcases hmem hx with rfl | hx
    · omega
    · rw [hword x hx]
      rcases List.mem_append.mp hx with hx' | hx'
      · have := hbefore x hx'
        omega
      · rcases List.mem_cons.mp hx' with rfl | hx'
        · omega
        · exact (hr x hx').2
  · rcases List.pairwise_append.mp h.apart with ⟨hl, har, hlr⟩
    rcases List.pairwise_cons.mp har with ⟨-, hrr⟩
    refine List.pairwise_append.mpr ⟨?_, ?_, ?_⟩
    · refine hl.imp_of_mem fun {x _} hx _ hxy => ?_
      rw [hword x (by simp [hx])]
      exact hxy
    · refine List.pairwise_cons.mpr ⟨?_, List.pairwise_cons.mpr ⟨?_, ?_⟩⟩
      · intro x hx
        rw [hword a ha]
        rcases List.mem_cons.mp hx with rfl | hx
        · omega
        · exact hbehind x hx
      · intro x hx
        rw [hsz]
        exact (hr x hx).1
      · refine hrr.imp_of_mem fun {x _} hx _ hxy => ?_
        rw [hword x (by simp [hx])]
        exact hxy
    · intro x hx y hy
      rw [hword x (by simp [hx])]
      have := hbefore x hx
      rcases List.mem_cons.mp hy with rfl | hy
      · exact this
      · rcases List.mem_cons.mp hy with rfl | hy
        · omega
        · exact hlr x hx y (List.mem_cons_of_mem a hy)

/-- **The header behind `a` goes.** -/
theorem unlink (h : Headers mem head stop (l ++ a :: b :: r))
    (hstop : ∀ x ∈ l ++ a :: r, x + mem x ≤ stop') :
    Headers (setNlink mem a (nlink mem b)) head stop' (l ++ a :: r) := by
  have hsub : (l ++ a :: r).Sublist (l ++ a :: b :: r) :=
    (List.Sublist.refl l).append ((List.sublist_cons_self b r).cons_cons a)
  have ha : a ∈ l ++ a :: b :: r := by simp
  have hal := h.aligned a ha
  have hword : ∀ x ∈ l ++ a :: r, setNlink mem a (nlink mem b) x = mem x := by
    intro x hx
    have := h.aligned x (hsub.subset hx)
    exact Function.update_of_ne (by omega) ..
  have hlink : ∀ x ≠ a, next (setNlink mem a (nlink mem b)) x = next mem x := by
    intro x hx
    have heq : nlink (setNlink mem a (nlink mem b)) x = nlink mem x :=
      Function.update_of_ne (by omega) ..
    simp only [next, heq]
  have hnodup := hsub.nodup h.nodup
  rw [List.nodup_middle, List.nodup_cons, List.mem_append, not_or] at hnodup
  refine ⟨?_, fun x hx => h.pos x (hsub.subset hx), fun x hx => h.aligned x (hsub.subset hx),
    ?_, ?_, ?_, ?_⟩
  · refine h.chain.unlink ?_ (fun x hx => hlink x ?_) fun x hx => hlink x ?_
    · have heq : nlink (setNlink mem a (nlink mem b)) a = nlink mem b := Function.update_self ..
      simp only [next, heq]
    · rintro rfl
      exact hnodup.1.1 hx
    · rintro rfl
      exact hnodup.1.2 hx
  · intro x hx
    rw [hword x hx]
    exact h.size_le x (hsub.subset hx)
  · intro x hx
    rw [hword x hx]
    exact h.size_aligned x (hsub.subset hx)
  · intro x hx
    rw [hword x hx]
    exact hstop x hx
  · refine (h.apart.sublist hsub).imp_of_mem fun {x _} hx _ hxy => ?_
    rw [hword x hx]
    exact hxy

/-! ### The loops -/

/-- Headers take up room. -/
theorem length_le (h : Headers mem head stop hs) : 8 * (hs.length : ℤ) ≤ stop := by
  have hall : ∀ hs : List ℤ, (∀ a ∈ hs, 0 < a ∧ 8 ≤ mem a ∧ a + mem a ≤ stop) →
      hs.Pairwise (fun a b => a + mem a ≤ b) → ∀ a r, hs = a :: r →
        a + 8 * (hs.length : ℤ) ≤ stop := by
    intro hs
    induction hs with
    | nil => exact fun _ _ _ _ => nofun
    | cons a r ih =>
      rintro hnode hpw _ _ ⟨⟩
      rcases List.pairwise_cons.mp hpw with ⟨har, hr⟩
      have ha := hnode a List.mem_cons_self
      rcases r with _ | ⟨b, r⟩
      · simp only [List.length_cons, List.length_nil]
        omega
      · have hb := ih (fun x hx => hnode x (List.mem_cons_of_mem a hx)) hr b r rfl
        have hab := har b List.mem_cons_self
        simp only [List.length_cons] at hb ⊢
        push_cast at hb ⊢
        omega
  rcases h.head_mem with ⟨r, rfl⟩
  have hlen := hall (head :: r)
    (fun a ha => ⟨h.pos a ha, h.size_le a ha, h.end_le a ha⟩) h.apart head r rfl
  have hpos := h.pos head List.mem_cons_self
  omega

/-- The walk of `malloc` from one header on. -/
theorem place_of_chain {size : ℤ} :
    ∀ {n : ℕ} {a : ℤ} {r : List ℤ}, Chain (next mem) (some a) (a :: r) →
      (∀ x ∈ a :: r, 0 < x ∧ x < 2 ^ 32 ∧ 0 ≤ mem x) →
      (a :: r).Pairwise (fun x y => x + mem x ≤ y) → (a :: r).length ≤ n →
      (∃ l x y r', a :: r = l ++ x :: y :: r' ∧ place mem size n a = some (true, x) ∧
        size ≤ y - (x + mem x)) ∨
      ∃ l x, a :: r = l ++ [x] ∧ place mem size n a = some (false, x) := by
  intro n
  induction n with
  | zero => exact fun _ _ _ hlen => absurd hlen (by simp)
  | succ n ih =>
    intro a r hchain hnode hpw hlen
    rcases r with _ | ⟨b, r⟩
    · refine .inr ⟨[], a, rfl, ?_⟩
      have hnull := nlink_of_next_none hchain.2
      rw [place, if_neg (not_not.mpr hnull)]
    · rcases nlink_of_next hchain.2.1 with ⟨hlink, hne⟩
      rcases List.pairwise_cons.mp hpw with ⟨har, hr⟩
      have hab := har b List.mem_cons_self
      have ha := hnode a List.mem_cons_self
      have hb := hnode b (by simp)
      rw [place, if_pos hne, hlink, uint32_of_bounds (by omega) (by omega)]
      by_cases hgap : b - mem a - a ≥ size
      · rw [if_pos hgap]
        exact .inl ⟨[], a, b, r, rfl, rfl, by omega⟩
      · rw [if_neg hgap]
        have hrest := hchain.2
        rw [next_eq_some hne, hlink] at hrest
        rcases ih hrest (fun x hx => hnode x (List.mem_cons_of_mem a hx)) hr
          (by simpa using hlen) with ⟨l, x, y, r', heq, hplace, hsize⟩ | ⟨l, x, heq, hplace⟩
        · exact .inl ⟨a :: l, x, y, r', by rw [heq]; rfl, hplace, hsize⟩
        · exact .inr ⟨a :: l, x, by rw [heq]; rfl, hplace⟩

/-- **What `malloc` finds**: a gap, or the last header. -/
theorem place_spec (h : Headers mem head stop hs) (hstop : stop ≤ 2 ^ 32) (size : ℤ) :
    (∃ l x y r, hs = l ++ x :: y :: r ∧ place mem size WALK head = some (true, x) ∧
      size ≤ y - (x + mem x)) ∨
    ∃ l x, hs = l ++ [x] ∧ place mem size WALK head = some (false, x) := by
  have hlen := h.length_le
  rcases h.head_mem with ⟨r, rfl⟩
  refine place_of_chain h.chain (fun x hx => ?_) h.apart ?_
  · have := h.pos x hx
    have := h.size_le x hx
    have := h.end_le x hx
    omega
  · rw [WALK]
    omega

/-- The walk of `free` from one header on. -/
theorem search_of_chain {realAddr : ℤ} :
    ∀ (n : ℕ) (last : ℤ) {a : ℤ} {r : List ℤ}, Chain (next mem) (some a) (a :: r) →
      (∀ x ∈ a :: r, 0 < x) → realAddr ∈ a :: r → (a :: r).length ≤ n →
      ∃ l x r', last :: a :: r = l ++ x :: realAddr :: r' ∧
        search mem realAddr n last a = some (some x) := by
  intro n
  induction n with
  | zero => exact fun _ _ _ _ _ _ hlen => absurd hlen (by simp)
  | succ n ih =>
    intro last a r hchain hpos hmem hlen
    have ha := hpos a List.mem_cons_self
    rw [search, if_pos (by omega)]
    by_cases heq : a = realAddr
    · rw [if_pos heq]
      exact ⟨[], last, r, by rw [heq]; rfl, rfl⟩
    · rw [if_neg heq]
      have hr : realAddr ∈ r := (List.mem_cons.mp hmem).resolve_left fun e => heq e.symm
      rcases r with _ | ⟨b, r⟩
      · cases hr
      · rcases nlink_of_next hchain.2.1 with ⟨hlink, hne⟩
        have hrest := hchain.2
        rw [next_eq_some hne, hlink] at hrest
        rcases ih a hrest (fun x hx => hpos x (List.mem_cons_of_mem a hx)) hr
          (by simpa using hlen) with ⟨l, x, r', hsplit, hsearch⟩
        refine ⟨last :: l, x, r', by rw [hsplit]; rfl, ?_⟩
        rw [hlink]
        exact hsearch

/-- **What `free` finds**: the header before the block's. -/
theorem search_spec (h : Headers mem head stop hs) (hstop : stop ≤ 2 ^ 32) (hb : b ∈ hs)
    (hne : b ≠ head) :
    ∃ l x r, hs = l ++ x :: b :: r ∧ search mem b WALK head head = some (some x) := by
  have hlen := h.length_le
  rcases h.head_mem with ⟨r, rfl⟩
  have hpos := h.pos head List.mem_cons_self
  have hr : b ∈ r := (List.mem_cons.mp hb).resolve_left hne
  rcases r with _ | ⟨c, r⟩
  · cases hr
  have hchain := h.chain
  rcases nlink_of_next hchain.2.1 with ⟨hlink, hne'⟩
  have hrest := hchain.2
  rw [next_eq_some hne', hlink] at hrest
  rcases search_of_chain (2 ^ 29 - 1) head hrest
    (fun x hx => h.pos x (List.mem_cons_of_mem head hx)) hr
    (by simp only [List.length_cons] at hlen ⊢; omega) with ⟨l, x, r', hsplit, hsearch⟩
  refine ⟨l, x, r', hsplit, ?_⟩
  rw [show WALK = 2 ^ 29 - 1 + 1 from rfl, search, if_pos (by omega), if_neg (Ne.symm hne), hlink]
  exact hsearch

end Headers

end Heap
end UnixV6pp
