import Mathlib.Logic.Function.Basic
import Mathlib.Data.Set.Insert

/-!
# Lists through pointers

A list is kept in the nodes themselves: `next` says where the pointer in a node leads.
It ends with a null pointer, or it closes to a ring in which `prev` leads back.

* `Chain` — a list that ends; `Chain.snoc`, `Chain.congr`, `Chain.insert`, `Chain.unlink`.
* `Path` — a piece of a list.
* `Ring` — a doubly linked ring; `Ring.insert`, `Ring.remove`.
-/

namespace Links

variable {α : Type*} {next next' prev : α → Option α}

/-- Following `next` from `p` leads through the nodes of the list, and no further. -/
def Chain (next : α → Option α) : Option α → List α → Prop
  | p, [] => p = none
  | p, a :: l => p = some a ∧ Chain next (next a) l

/-- Only the nodes of the list matter. -/
theorem Chain.congr {l : List α} {p : Option α} (h : Chain next p l)
    (hl : ∀ a ∈ l, next' a = next a) : Chain next' p l := by
  induction l generalizing p with
  | nil => exact h
  | cons a l ih =>
    refine ⟨h.1, ?_⟩
    rw [hl a List.mem_cons_self]
    exact ih h.2 fun b hb => hl b (List.mem_cons_of_mem a hb)

theorem Chain.eq_head {l : List α} {p : Option α} (h : Chain next p l) : p = l.head? := by
  cases l with
  | nil => exact h
  | cons a l => exact h.1

/-- Following `next` from `p` through the nodes of the list leads to `q`. -/
def Path (next : α → Option α) : Option α → List α → Option α → Prop
  | p, [], q => p = q
  | p, a :: l, q => p = some a ∧ Path next (next a) l q

theorem Path.congr {l : List α} {p q : Option α} (h : Path next p l q)
    (hl : ∀ a ∈ l, next' a = next a) : Path next' p l q := by
  induction l generalizing p with
  | nil => exact h
  | cons a l ih =>
    refine ⟨h.1, ?_⟩
    rw [hl a List.mem_cons_self]
    exact ih h.2 fun b hb => hl b (List.mem_cons_of_mem a hb)

/-- A list in two pieces. -/
theorem chain_append {l r : List α} {p : Option α} :
    Chain next p (l ++ r) ↔ ∃ q, Path next p l q ∧ Chain next q r := by
  induction l generalizing p with
  | nil => exact ⟨fun h => ⟨p, rfl, h⟩, fun ⟨_, hq, h⟩ => hq ▸ h⟩
  | cons a l ih =>
    simp only [List.cons_append, Chain, Path, ih, and_assoc, exists_and_left]

/-- A list around one of its nodes. -/
theorem chain_middle {l r : List α} {a : α} {p : Option α} :
    Chain next p (l ++ a :: r) ↔ Path next p l (some a) ∧ Chain next (next a) r := by
  rw [chain_append]
  constructor
  · rintro ⟨q, hpath, rfl, hchain⟩
    exact ⟨hpath, hchain⟩
  · rintro ⟨hpath, hchain⟩
    exact ⟨some a, hpath, rfl, hchain⟩

/-- A node is linked behind `a`. -/
theorem Chain.insert {l r : List α} {p : Option α} {a b : α} (h : Chain next p (l ++ a :: r))
    (ha : next' a = some b) (hb : next' b = next a) (hl : ∀ x ∈ l, next' x = next x)
    (hr : ∀ x ∈ r, next' x = next x) : Chain next' p (l ++ a :: b :: r) := by
  rw [chain_middle] at h ⊢
  refine ⟨h.1.congr hl, ?_⟩
  rw [ha]
  exact ⟨rfl, by rw [hb]; exact h.2.congr hr⟩

/-- The node behind `a` is taken out. -/
theorem Chain.unlink {l r : List α} {p : Option α} {a b : α}
    (h : Chain next p (l ++ a :: b :: r)) (ha : next' a = next b)
    (hl : ∀ x ∈ l, next' x = next x) (hr : ∀ x ∈ r, next' x = next x) :
    Chain next' p (l ++ a :: r) := by
  rw [chain_middle] at h ⊢
  refine ⟨h.1.congr hl, ?_⟩
  rw [ha]
  exact h.2.2.congr hr

variable [DecidableEq α]

/-- A node whose own pointer is null is linked behind the last one. -/
theorem Chain.snoc {l : List α} {p : Option α} {a b : α} (h : Chain next p (l ++ [a]))
    (hnodup : (l ++ [a]).Nodup) (hb : b ∉ l ++ [a]) (hnull : next b = none) :
    Chain (Function.update next a (some b)) p (l ++ [a] ++ [b]) := by
  induction l generalizing p with
  | nil =>
    have hba : b ≠ a := fun e => hb (by simp [e])
    refine ⟨h.1, ?_, ?_⟩
    · rw [Function.update_self]
    · rw [Function.update_of_ne hba]
      exact hnull
  | cons c l ih =>
    rw [List.cons_append, List.nodup_cons] at hnodup
    have hca : c ≠ a := fun e => hnodup.1 (by simp [e])
    refine ⟨h.1, ?_⟩
    rw [Function.update_of_ne hca]
    exact ih h.2 hnodup.2 fun hmem => hb (List.mem_cons_of_mem c hmem)

/-- Every pointer leads from a node of the ring to one, and the other one leads back. -/
structure Ring (next prev : α → Option α) (S : Set α) : Prop where
  forw : ∀ x ∈ S, ∃ y ∈ S, next x = some y ∧ prev y = some x
  back : ∀ y ∈ S, ∃ x ∈ S, prev y = some x ∧ next x = some y

variable {S : Set α}

omit [DecidableEq α] in
theorem Ring.congr {next' prev' : α → Option α} (h : Ring next prev S)
    (hn : ∀ x ∈ S, next' x = next x) (hp : ∀ x ∈ S, prev' x = prev x) : Ring next' prev' S := by
  constructor
  · intro x hx
    obtain ⟨y, hy, h1, h2⟩ := h.forw x hx
    exact ⟨y, hy, (hn x hx).trans h1, (hp y hy).trans h2⟩
  · intro y hy
    obtain ⟨x, hx, h1, h2⟩ := h.back y hy
    exact ⟨x, hx, (hp y hy).trans h1, (hn x hx).trans h2⟩

/-- A new node between the last one and `c`. -/
theorem Ring.insert (h : Ring next prev S) {b c last : α} (hc : c ∈ S) (hb : b ∉ S)
    (hlast : prev c = some last) :
    Ring (Function.update (Function.update next last (some b)) b (some c))
      (Function.update (Function.update prev b (some last)) c (some b)) (Insert.insert b S) := by
  obtain ⟨x, hx, hpx, hnx⟩ := h.back c hc
  obtain rfl : x = last := Option.some.inj (hpx.symm.trans hlast)
  have hne : ∀ y ∈ S, y ≠ b := fun y hy e => hb (e ▸ hy)
  constructor
  · rintro y (rfl | hy)
    · exact ⟨c, .inr hc, Function.update_self .., Function.update_self ..⟩
    · rw [Function.update_of_ne (hne y hy)]
      by_cases hyx : y = x
      · subst hyx
        refine ⟨b, .inl rfl, Function.update_self .., ?_⟩
        rw [Function.update_of_ne (hne c hc).symm, Function.update_self]
      · obtain ⟨z, hz, h1, h2⟩ := h.forw y hy
        have hzc : z ≠ c := by
          rintro rfl
          exact hyx (Option.some.inj (h2.symm.trans hpx))
        refine ⟨z, .inr hz, ?_, ?_⟩
        · rw [Function.update_of_ne hyx, h1]
        · rw [Function.update_of_ne hzc, Function.update_of_ne (hne z hz), h2]
  · rintro y (rfl | hy)
    · refine ⟨x, .inr hx, ?_, ?_⟩
      · rw [Function.update_of_ne (hne c hc).symm, Function.update_self]
      · rw [Function.update_of_ne (hne x hx), Function.update_self]
    · by_cases hyc : y = c
      · subst hyc
        exact ⟨b, .inl rfl, Function.update_self .., Function.update_self ..⟩
      · obtain ⟨z, hz, h1, h2⟩ := h.back y hy
        have hzx : z ≠ x := by
          rintro rfl
          exact hyc (Option.some.inj (h2.symm.trans hnx))
        refine ⟨z, .inr hz, ?_, ?_⟩
        · rw [Function.update_of_ne hyc, Function.update_of_ne (hne y hy), h1]
        · rw [Function.update_of_ne (hne z hz), Function.update_of_ne hzx, h2]

/-- The neighbours of a node are linked with each other. -/
theorem Ring.remove (h : Ring next prev S) {b x y : α} (hb : b ∈ S) (hx : prev b = some x)
    (hy : next b = some y) :
    Ring (Function.update next x (some y)) (Function.update prev y (some x)) (S \ {b}) := by
  obtain ⟨x', hxS, hx', hnx⟩ := h.back b hb
  obtain rfl : x' = x := Option.some.inj (hx'.symm.trans hx)
  obtain ⟨y', hyS, hy', hpy⟩ := h.forw b hb
  obtain rfl : y' = y := Option.some.inj (hy'.symm.trans hy)
  constructor
  · rintro z ⟨hz, hzb⟩
    by_cases hzx : z = x'
    · subst hzx
      refine ⟨y', ⟨hyS, ?_⟩, Function.update_self .., Function.update_self ..⟩
      rintro rfl
      exact hzb (Option.some.inj (hx.symm.trans hpy))
    · obtain ⟨w, hw, h1, h2⟩ := h.forw z hz
      have hwb : w ≠ b := by
        rintro rfl
        exact hzx (Option.some.inj (h2.symm.trans hx))
      have hwy : w ≠ y' := by
        rintro rfl
        exact hzb (Option.some.inj (h2.symm.trans hpy))
      refine ⟨w, ⟨hw, hwb⟩, ?_, ?_⟩
      · rw [Function.update_of_ne hzx, h1]
      · rw [Function.update_of_ne hwy, h2]
  · rintro z ⟨hz, hzb⟩
    by_cases hzy : z = y'
    · subst hzy
      refine ⟨x', ⟨hxS, ?_⟩, Function.update_self .., Function.update_self ..⟩
      rintro rfl
      exact hzb (Option.some.inj (hnx.symm.trans hy)).symm
    · obtain ⟨w, hw, h1, h2⟩ := h.back z hz
      have hwb : w ≠ b := by
        rintro rfl
        exact hzy (Option.some.inj (h2.symm.trans hy))
      have hwx : w ≠ x' := by
        rintro rfl
        exact hzb (Option.some.inj (h2.symm.trans hnx))
      refine ⟨w, ⟨hw, hwb⟩, ?_, ?_⟩
      · rw [Function.update_of_ne hzy, h1]
      · rw [Function.update_of_ne hwx, h2]

end Links
