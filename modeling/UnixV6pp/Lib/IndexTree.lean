import Mathlib.Data.List.Basic
import Mathlib.Data.List.Nodup
import Mathlib.Logic.Basic

/-!
# Index trees stored in blocks

A block is named by an address, and the address `0` names no block.  An index
block holds the addresses of further blocks; a tree hangs on a root address, and
a path picks an entry of one index block after the other.  A path lists its
indices from the last to the first, so that the block a step starts from is
reached by the tail of the path.

Several trees, named by `τ`, may share a memory.  `V t p` says that `p` is a path
of the tree `t`, and every tail of a path is one.

## Main definitions

* `walk` — the block at the end of a path.
* `Owned` — **no two paths lead to one block.**
* `postorder` — the blocks of a tree, each one behind those below it.

## Main results

* `walk_congr` — a walk sees only the entries on its way.
* `walk_graft` — filling one empty entry with a cleared block adds that block at
  that path and **changes nothing else.**
* `mem_postorder`, `nodup_postorder` — the list holds every block of the tree, once.
* `tour`, `leaves_tour` — a walk over the tree that leaves the blocks in that order.
* `Nested.not_mem` — it leaves no block before it has entered it.
-/

namespace IndexTree

variable {τ α : Type*} [Zero α] [DecidableEq α]

/-- The block at the end of the path `p` from the root `a`, or `0`. -/
def walk (entry : α → ℕ → α) (a : α) : List ℕ → α
  | [] => a
  | j :: p => if walk entry a p = 0 then 0 else entry (walk entry a p) j

section Walk

variable {entry entry' : α → ℕ → α} {a b : α} {p : List ℕ} {j : ℕ}

@[simp] theorem walk_nil : walk entry a [] = a := rfl

theorem walk_cons_of_ne (h : walk entry a p ≠ 0) :
    walk entry a (j :: p) = entry (walk entry a p) j := if_neg h

theorem walk_cons_of_eq (h : walk entry a p = 0) : walk entry a (j :: p) = 0 := if_pos h

/-- A block has one above it. -/
theorem walk_tail_ne (h : walk entry a (j :: p) ≠ 0) : walk entry a p ≠ 0 :=
  fun h0 => h (walk_cons_of_eq h0)

@[simp] theorem walk_zero (p : List ℕ) : walk entry 0 p = 0 := by
  induction p with
  | nil => rfl
  | cons j p ih => exact walk_cons_of_eq ih

/-- The first step of a path leads into the tree of an entry. -/
theorem walk_append (ha : a ≠ 0) (p : List ℕ) :
    walk entry a (p ++ [j]) = walk entry (entry a j) p := by
  induction p with
  | nil => exact if_neg ha
  | cons i p ih => simp only [List.cons_append, walk, ih]

end Walk

/-! ### Several trees in one memory -/

section Forest

variable {entry entry' : α → ℕ → α} {root root' : τ → α} {V : τ → List ℕ → Prop} {b : α}
  {t : τ} {p : List ℕ}

/-- No two paths lead to one block. -/
def Owned (V : τ → List ℕ → Prop) (entry : α → ℕ → α) (root : τ → α) : Prop :=
  ∀ t p u q, V t p → V u q → walk entry (root t) p ≠ 0 →
    walk entry (root t) p = walk entry (root u) q → t = u ∧ p = q

/-- A walk sees only the entries on its way. -/
theorem walk_congr (hV : ∀ {t j p}, V t (j :: p) → V t p)
    (hroot : ∀ u, V u [] → root' u = root u)
    (hentry : ∀ u j q, V u (j :: q) → walk entry (root u) q ≠ 0 →
      entry' (walk entry (root u) q) j = entry (walk entry (root u) q) j) :
    ∀ {q : List ℕ} {u : τ}, V u q → walk entry' (root' u) q = walk entry (root u) q
  | [], u, h => hroot u h
  | j :: q, u, h => by
    have ih := walk_congr hV hroot hentry (hV h)
    by_cases h0 : walk entry (root u) q = 0
    · rw [walk_cons_of_eq h0, walk_cons_of_eq (ih.trans h0)]
    · rw [walk_cons_of_ne h0, walk_cons_of_ne (ih.trans_ne h0), ih, hentry u j q h h0]

variable [DecidableEq τ]

/-- **Grafting.**  The empty entry at the end of `p` is filled with the address of
a cleared block, and every other walk ends where it ended. -/
theorem walk_graft (hV : ∀ {t j p}, V t (j :: p) → V t p)
    (hp : walk entry (root t) p = 0) (hpar : ∀ j q, p = j :: q → walk entry (root t) q ≠ 0)
    (hb : b ≠ 0) (hnew : ∀ j, entry' b j = 0)
    (hroot : ∀ u, root' u = if u = t ∧ p = [] then b else root u)
    (hentry : ∀ u j q, V u (j :: q) → walk entry (root u) q ≠ 0 →
      entry' (walk entry (root u) q) j =
        if u = t ∧ p = j :: q then b else entry (walk entry (root u) q) j) :
    ∀ {q : List ℕ} {u : τ}, V u q →
      walk entry' (root' u) q = if u = t ∧ p = q then b else walk entry (root u) q
  | [], u, _ => hroot u
  | j :: q, u, h => by
    have ih := walk_graft hV hp hpar hb hnew hroot hentry (hV h)
    by_cases hq : u = t ∧ p = q
    · -- below the new block there is nothing, and there was nothing before
      obtain ⟨rfl, rfl⟩ := hq
      rw [if_pos ⟨rfl, rfl⟩] at ih
      rw [walk_cons_of_ne (ih.trans_ne hb), ih, hnew, walk_cons_of_eq hp, if_neg]
      intro heq
      exact absurd (congrArg List.length heq.2) (by simp)
    · rw [if_neg hq] at ih
      by_cases h0 : walk entry (root u) q = 0
      · rw [walk_cons_of_eq h0, walk_cons_of_eq (ih.trans h0), if_neg]
        rintro ⟨rfl, heq⟩
        exact hpar j q heq h0
      · rw [walk_cons_of_ne h0, walk_cons_of_ne (ih.trans_ne h0), ih, hentry u j q h h0]

/-- A graft of a new block keeps the blocks apart. -/
theorem Owned.graft (h : Owned V entry root)
    (hfresh : ∀ u q, V u q → walk entry (root u) q ≠ b)
    (hwalk : ∀ u q, V u q →
      walk entry' (root' u) q = if u = t ∧ p = q then b else walk entry (root u) q) :
    Owned V entry' root' := by
  intro u q v r hu hv hne heq
  rw [hwalk u q hu] at hne heq
  rw [hwalk v r hv] at heq
  split at heq
  · next h₁ =>
    obtain ⟨rfl, rfl⟩ := h₁
    split at heq
    · next h₂ => exact ⟨h₂.1.symm, h₂.2⟩
    · exact absurd heq.symm (hfresh v r hv)
  · next h₁ =>
    rw [if_neg h₁] at hne
    split at heq
    · exact absurd heq (hfresh u q hu)
    · exact h u q v r hu hv hne heq

end Forest

/-! ### The blocks of one tree -/

section Postorder

variable (entry : α → ℕ → α) (width : ℕ)

/-- The blocks of the tree at `a` down to `d` levels below it: for each index from
the last to the first the blocks below its entry, then the block itself. -/
def postorder : ℕ → α → List α
  | 0, a => if a = 0 then [] else [a]
  | d + 1, a => if a = 0 then [] else
      (List.range width).reverse.flatMap (fun j => postorder d (entry a j)) ++ [a]

variable {entry width} {a b : α} {d : ℕ}

@[simp] theorem postorder_zero_root (d : ℕ) : postorder entry width d 0 = [] := by
  cases d with
  | zero => exact if_pos rfl
  | succ d => exact if_pos rfl

/-- The list holds the blocks that a path within the depth leads to. -/
theorem mem_postorder : b ∈ postorder entry width d a ↔
    b ≠ 0 ∧ ∃ p : List ℕ, p.length ≤ d ∧ (∀ j ∈ p, j < width) ∧ walk entry a p = b := by
  induction d generalizing a with
  | zero =>
    by_cases ha : a = 0
    · subst ha
      simp only [postorder_zero_root, List.not_mem_nil, walk_zero, false_iff]
      rintro ⟨hb, p, -, -, rfl⟩
      exact hb rfl
    · rw [postorder, if_neg ha, List.mem_singleton]
      constructor
      · rintro rfl
        exact ⟨ha, [], by simp⟩
      · rintro ⟨-, p, hp, -, rfl⟩
        rw [List.length_eq_zero_iff.mp (Nat.le_zero.mp hp)]
        rfl
  | succ d ih =>
    by_cases ha : a = 0
    · subst ha
      simp only [postorder_zero_root, List.not_mem_nil, walk_zero, false_iff]
      rintro ⟨hb, p, -, -, rfl⟩
      exact hb rfl
    · simp only [postorder, if_neg ha, List.mem_append, List.mem_flatMap, List.mem_reverse,
        List.mem_range, List.mem_singleton, ih]
      constructor
      · rintro (⟨j, hj, hb, p, hp, hlt, rfl⟩ | rfl)
        · refine ⟨hb, p ++ [j], by simpa using hp, ?_, walk_append ha p⟩
          intro i hi
          rcases List.mem_append.mp hi with hi | hi
          · exact hlt i hi
          · rw [List.mem_singleton.mp hi]; exact hj
        · exact ⟨ha, [], by simp⟩
      · rintro ⟨hb, p, hp, hlt, rfl⟩
        rcases List.eq_nil_or_concat p with rfl | ⟨p, j, rfl⟩
        · exact .inr rfl
        · rw [List.concat_eq_append] at *
          rw [List.length_append, List.length_singleton] at hp
          rw [walk_append ha] at hb ⊢
          exact .inl ⟨j, hlt j (by simp), hb, p, by omega, fun i hi => hlt i (by simp [hi]), rfl⟩

/-- The blocks of a tree in which no two paths lead to one block are listed once. -/
theorem nodup_postorder (hinj : ∀ p q : List ℕ, p.length ≤ d → q.length ≤ d →
    (∀ j ∈ p, j < width) → (∀ j ∈ q, j < width) → walk entry a p ≠ 0 →
    walk entry a p = walk entry a q → p = q) : (postorder entry width d a).Nodup := by
  induction d generalizing a with
  | zero =>
    rw [postorder]
    split <;> simp
  | succ d ih =>
    by_cases ha : a = 0
    · rw [ha, postorder_zero_root]
      exact List.nodup_nil
    · rw [postorder, if_neg ha]
      -- a path below the entry `j` is a path of the tree with `j` as its first step
      have hstep : ∀ j < width, ∀ p : List ℕ, p.length ≤ d → (∀ i ∈ p, i < width) →
          (p ++ [j]).length ≤ d + 1 ∧ (∀ i ∈ p ++ [j], i < width) := by
        intro j hj p hp hlt
        refine ⟨by simpa using hp, ?_⟩
        intro i hi
        rcases List.mem_append.mp hi with hi | hi
        · exact hlt i hi
        · rw [List.mem_singleton.mp hi]; exact hj
      have hmeet : ∀ i < width, ∀ j < width, ∀ p q : List ℕ, p.length ≤ d → q.length ≤ d →
          (∀ k ∈ p, k < width) → (∀ k ∈ q, k < width) → walk entry (entry a i) p ≠ 0 →
          walk entry (entry a i) p = walk entry (entry a j) q → p ++ [i] = q ++ [j] := by
        intro i hi j hj p q hp hq hpw hqw hne heq
        rw [← walk_append ha] at hne
        rw [← walk_append ha, ← walk_append ha] at heq
        obtain ⟨h1, h2⟩ := hstep i hi p hp hpw
        obtain ⟨h3, h4⟩ := hstep j hj q hq hqw
        exact hinj _ _ h1 h3 h2 h4 hne heq
      refine List.nodup_append.mpr ⟨List.nodup_flatMap.mpr ⟨?_, ?_⟩, List.nodup_singleton a, ?_⟩
      · intro j hj
        refine ih fun p q hp hq hpw hqw hne heq => ?_
        have hj : j < width := by simpa using hj
        exact List.append_cancel_right (hmeet j hj j hj p q hp hq hpw hqw hne heq)
      · refine List.Nodup.pairwise_of_forall_ne (List.nodup_reverse.mpr List.nodup_range) ?_
        intro i hi j hj hij
        have hi : i < width := by simpa using hi
        have hj : j < width := by simpa using hj
        intro x hx hy
        obtain ⟨hx0, p, hp, hpw, rfl⟩ := mem_postorder.mp hx
        obtain ⟨-, q, hq, hqw, hqx⟩ := mem_postorder.mp hy
        have heq := hmeet i hi j hj p q hp hq hpw hqw hx0 hqx.symm
        exact hij (by simpa using List.append_inj_right' heq rfl)
      · intro x hx y hy
        rw [List.mem_singleton] at hy
        subst hy
        rintro rfl
        obtain ⟨j, hj, hx⟩ := List.mem_flatMap.mp hx
        have hj : j < width := by simpa using hj
        obtain ⟨-, p, hp, hpw, hpx⟩ := mem_postorder.mp hx
        obtain ⟨h1, h2⟩ := hstep j hj p hp hpw
        have heq := hinj [] (p ++ [j]) (by simp) h1 (by simp) h2 ha
          (by rw [walk_append ha, hpx]; rfl)
        simp at heq

end Postorder

/-! ### A walk over one tree -/

/-- A step of a walk over a tree. -/
inductive Visit (α : Type*)
  /-- The entries of the block are looked at. -/
  | enter (a : α)
  /-- The block is left, and not needed any more. -/
  | leave (a : α)
  deriving DecidableEq

section Tour

/-- The blocks that are left, in their order. -/
def leaves (l : List (Visit α)) : List α :=
  l.filterMap fun
    | .enter _ => none
    | .leave a => some a

/-- What is entered is left later. -/
def Nested (l : List (Visit α)) : Prop :=
  ∀ l₁ a l₂, l = l₁ ++ .enter a :: l₂ → .leave a ∈ l₂

variable (entry : α → ℕ → α) (width : ℕ)

/-- The walk over the tree at `a`: the block is entered, then come the trees of its entries from the
last to the first, and then it is left. -/
def tour : ℕ → α → List (Visit α)
  | 0, a => if a = 0 then [] else [.leave a]
  | d + 1, a => if a = 0 then [] else
      .enter a :: ((List.range width).reverse.flatMap (fun j => tour d (entry a j)) ++ [.leave a])

variable {entry width} {a b : α} {d : ℕ} {l l₁ l₂ : List (Visit α)}

omit [Zero α] [DecidableEq α]

@[simp] theorem leaves_nil : leaves ([] : List (Visit α)) = [] := rfl

@[simp] theorem leaves_enter : leaves (.enter a :: l) = leaves l := rfl

@[simp] theorem leaves_leave : leaves (.leave a :: l) = a :: leaves l := rfl

@[simp] theorem leaves_append : leaves (l₁ ++ l₂) = leaves l₁ ++ leaves l₂ := List.filterMap_append

theorem leaves_flatMap {β : Type*} (f : β → List (Visit α)) (bs : List β) :
    leaves (bs.flatMap f) = bs.flatMap fun b => leaves (f b) := by
  induction bs with
  | nil => rfl
  | cons b bs ih => simp [List.flatMap_cons, ih]

theorem mem_leaves : a ∈ leaves l ↔ .leave a ∈ l := by
  induction l with
  | nil => simp
  | cons v l ih => cases v with
    | enter b => simp [ih]
    | leave b => simp [ih]

theorem nested_leave (a : α) : Nested [.leave a] := by
  rintro l₁ b l₂ h
  have hmem : Visit.enter b ∈ [Visit.leave a] := h ▸ List.mem_append_right _ (.head _)
  simp at hmem

theorem Nested.append (h₁ : Nested l₁) (h₂ : Nested l₂) : Nested (l₁ ++ l₂) := by
  intro k₁ a k₂ h
  rcases List.append_eq_append_iff.mp h with ⟨m, hk, hl⟩ | ⟨m, hk, hl⟩
  · exact h₂ m a k₂ hl
  · cases m with
    | nil => exact h₂ [] a k₂ hl.symm
    | cons v m =>
      obtain ⟨rfl, rfl⟩ := List.cons.inj hl
      exact List.mem_append_left _ (h₁ k₁ a m hk)

theorem Nested.flatMap {β : Type*} {f : β → List (Visit α)} (h : ∀ b, Nested (f b)) (bs : List β) :
    Nested (bs.flatMap f) := by
  induction bs with
  | nil => exact fun l₁ a l₂ h => absurd h (by simp)
  | cons b bs ih => exact (h b).append ih

/-- A block that is left only once is not left before it is entered. -/
theorem Nested.not_mem (h : Nested l) (hnodup : (leaves l).Nodup) (heq : l = l₁ ++ .enter a :: l₂) :
    .leave a ∉ l₁ := by
  have hlater := mem_leaves.mpr (h l₁ a l₂ heq)
  intro hearlier
  rw [heq, leaves_append, leaves_enter] at hnodup
  exact (List.nodup_append.mp hnodup).2.2 a (mem_leaves.mpr hearlier) a hlater rfl

variable [DecidableEq α]

/-- A block is left as often as it is listed. -/
theorem count_leave (a : α) (l : List (Visit α)) : l.count (.leave a) = (leaves l).count a := by
  induction l with
  | nil => rfl
  | cons v l ih => cases v with
    | enter b => simp [ih]
    | leave b => simp [List.count_cons, ih]

variable [Zero α]

@[simp] theorem tour_zero_root (d : ℕ) : tour entry width d 0 = [] := by
  cases d with
  | zero => exact if_pos rfl
  | succ d => exact if_pos rfl

/-- The blocks of the tree are left in the order of the list. -/
theorem leaves_tour : leaves (tour entry width d a) = postorder entry width d a := by
  induction d generalizing a with
  | zero =>
    unfold tour postorder
    split <;> rfl
  | succ d ih =>
    unfold tour postorder
    split
    · rfl
    · simp [leaves_flatMap, ih]

theorem nested_tour : Nested (tour entry width d a) := by
  induction d generalizing a with
  | zero =>
    unfold tour
    split
    · exact fun l₁ b l₂ h => absurd h (by simp)
    · exact nested_leave a
  | succ d ih =>
    unfold tour
    split
    · exact fun l₁ b l₂ h => absurd h (by simp)
    · have hrest := (Nested.flatMap (fun j => ih (a := entry a j)) (List.range width).reverse).append
        (nested_leave a)
      intro l₁ b l₂ h
      cases l₁ with
      | nil =>
        obtain ⟨heq, rfl⟩ := List.cons.inj h
        cases heq
        simp
      | cons v l₁ => exact hrest l₁ b l₂ (List.cons.inj h).2

/-- Every block above the leaves is entered. -/
theorem enter_mem_tour {p : List ℕ} (hlen : p.length < d) (hlt : ∀ j ∈ p, j < width)
    (hne : walk entry a p ≠ 0) : .enter (walk entry a p) ∈ tour entry width d a := by
  induction d generalizing a p with
  | zero => omega
  | succ d ih =>
    have ha : a ≠ 0 := by
      rintro rfl
      exact hne (walk_zero p)
    unfold tour
    rw [if_neg ha]
    rcases List.eq_nil_or_concat p with rfl | ⟨p, j, rfl⟩
    · exact .head _
    · rw [List.concat_eq_append] at *
      rw [List.length_append, List.length_singleton] at hlen
      rw [walk_append ha] at hne ⊢
      have hmem := ih (by omega) (fun i hi => hlt i (by simp [hi])) hne
      refine .tail _ (List.mem_append_left _ (List.mem_flatMap.mpr ⟨j, ?_, hmem⟩))
      simpa using hlt j (by simp)

end Tour

end IndexTree
