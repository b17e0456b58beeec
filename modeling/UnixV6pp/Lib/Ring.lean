import Mathlib.Data.List.Basic
import Mathlib.Logic.Function.Basic

/-!
# Queues in a ring of places

A queue lies in a ring of `n` places from `tail` on; the next element is put at `head`.  One
place stays free, as `head = tail` means that the queue is empty.

## Main definitions

* `ringSize`, `ringList` — the number of elements, and the elements in order.

## Main results

* `ringList_put` — **while a place stays free** a new element comes last.
* `ringList_get` — the element at `tail` is the first.
* `ringList_put_full` — the last free place: the queue is empty then.
-/

section Ring

variable {α : Type*} {n head tail : ℕ}

/-- How many elements lie from `tail` up to `head`. -/
def ringSize (n head tail : ℕ) : ℕ := (head + n - tail) % n

/-- The elements from `tail` up to `head`. -/
def ringList (n head tail : ℕ) (buf : ℕ → α) : List α :=
  (List.range (ringSize n head tail)).map fun i => buf ((tail + i) % n)

@[simp] theorem length_ringList (buf : ℕ → α) :
    (ringList n head tail buf).length = ringSize n head tail := by
  simp [ringList]

theorem ringSize_lt (hn : 0 < n) : ringSize n head tail < n := Nat.mod_lt _ hn

/-- The size without the remainder. -/
theorem ringSize_eq (hhead : head < n) (htail : tail < n) :
    ringSize n head tail = if tail ≤ head then head - tail else head + n - tail := by
  unfold ringSize
  split
  · rw [show head + n - tail = head - tail + n by omega, Nat.add_mod_right,
      Nat.mod_eq_of_lt (by omega)]
  · exact Nat.mod_eq_of_lt (by omega)

theorem ringSize_eq_zero (hhead : head < n) (htail : tail < n) :
    ringSize n head tail = 0 ↔ head = tail := by
  rw [ringSize_eq hhead htail]
  split <;> omega

/-- The place after this one. -/
theorem succ_mod (hhead : head < n) : (head + 1) % n = if head + 1 = n then 0 else head + 1 := by
  split
  · next h => rw [h, Nat.mod_self]
  · exact Nat.mod_eq_of_lt (by omega)

theorem ringSize_put (hhead : head < n) (htail : tail < n)
    (hroom : ringSize n head tail + 1 < n) :
    ringSize n ((head + 1) % n) tail = ringSize n head tail + 1 := by
  rw [ringSize_eq hhead htail] at hroom ⊢
  rw [ringSize_eq (Nat.mod_lt _ (by omega)) htail, succ_mod hhead]
  split_ifs at hroom ⊢ <;> omega

/-- With the last free place taken `head` is back at `tail`. -/
theorem ringSize_put_full (hhead : head < n) (htail : tail < n)
    (hfull : ringSize n head tail + 1 = n) : ringSize n ((head + 1) % n) tail = 0 := by
  rw [ringSize_eq hhead htail] at hfull
  rw [ringSize_eq (Nat.mod_lt _ (by omega)) htail, succ_mod hhead]
  split_ifs at hfull ⊢ <;> omega

theorem ringSize_get (hhead : head < n) (htail : tail < n) (hne : head ≠ tail) :
    ringSize n head tail = ringSize n head ((tail + 1) % n) + 1 := by
  rw [ringSize_eq hhead htail, ringSize_eq hhead (Nat.mod_lt _ (by omega)), succ_mod htail]
  split_ifs <;> omega

/-- `head` is as far from `tail` as there are elements. -/
theorem tail_add_ringSize (hhead : head < n) (htail : tail < n) :
    (tail + ringSize n head tail) % n = head := by
  rw [ringSize_eq hhead htail]
  split
  · rw [Nat.mod_eq_of_lt (by omega)]
    omega
  · rw [show tail + (head + n - tail) = head + n by omega, Nat.add_mod_right,
      Nat.mod_eq_of_lt hhead]

/-- **A new element comes last.** -/
theorem ringList_put (hhead : head < n) (htail : tail < n)
    (hroom : ringSize n head tail + 1 < n) (buf : ℕ → α) (x : α) :
    ringList n ((head + 1) % n) tail (Function.update buf head x) =
      ringList n head tail buf ++ [x] := by
  rw [ringList, ringSize_put hhead htail hroom, List.range_succ, List.map_append]
  congr 1
  · refine List.map_congr_left fun i hi => Function.update_of_ne ?_ ..
    -- the places in use are nearer to `tail` than `head` is
    have hi : i < ringSize n head tail := List.mem_range.mp hi
    rw [ringSize_eq hhead htail] at hi hroom
    have hplace : (tail + i) % n = if tail + i < n then tail + i else tail + i - n := by
      split
      · next h => exact Nat.mod_eq_of_lt h
      · next h =>
        rw [show tail + i = tail + i - n + n by omega, Nat.add_mod_right,
          Nat.mod_eq_of_lt (by split_ifs at hi <;> omega)]
        omega
    rw [hplace]
    split_ifs at hi hroom ⊢ <;> omega
  · rw [List.map_singleton, tail_add_ringSize hhead htail, Function.update_self]

/-- With the last free place taken the queue is empty. -/
theorem ringList_put_full (hhead : head < n) (htail : tail < n)
    (hfull : ringSize n head tail + 1 = n) (buf : ℕ → α) :
    ringList n ((head + 1) % n) tail buf = [] := by
  rw [← List.length_eq_zero_iff, length_ringList, ringSize_put_full hhead htail hfull]

/-- The element at `tail` is the first. -/
theorem ringList_get (hhead : head < n) (htail : tail < n) (hne : head ≠ tail) (buf : ℕ → α) :
    ringList n head tail buf = buf tail :: ringList n head ((tail + 1) % n) buf := by
  rw [ringList, ringSize_get hhead htail hne, List.range_succ_eq_map, List.map_cons, List.map_map,
    ringList]
  congr 1
  · rw [Nat.add_zero, Nat.mod_eq_of_lt htail]
  · refine List.map_congr_left fun i _ => ?_
    change buf ((tail + (i + 1)) % n) = buf (((tail + 1) % n + i) % n)
    rw [Nat.mod_add_mod, Nat.add_right_comm, Nat.add_assoc]

theorem ringList_eq_nil (hhead : head < n) (htail : tail < n) (buf : ℕ → α) :
    ringList n head tail buf = [] ↔ head = tail := by
  rw [← List.length_eq_zero_iff, length_ringList, ringSize_eq_zero hhead htail]

end Ring
