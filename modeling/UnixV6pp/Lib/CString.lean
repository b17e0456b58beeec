import Mathlib.Data.List.Basic

/-!
# Strings in a memory

A string is the bytes from an address on, up to the first zero.

* `textFrom` — the string at an address, if it ends within some bytes.
* `textFrom_eq_some_iff` — **what is in the memory then.**
-/

/-- The string at `p`, if it ends within `limit` bytes. -/
def textFrom (mem : ℕ → UInt8) : ℕ → ℕ → Option (List UInt8)
  | 0, _ => none
  | limit + 1, p =>
    if mem p = 0 then some [] else (textFrom mem limit (p + 1)).map (mem p :: ·)

section CString

variable {mem mem' : ℕ → UInt8} {limit p : ℕ} {t : List UInt8}

/-- The bytes of the string, and a zero. -/
theorem textFrom_eq_some_iff : textFrom mem limit p = some t ↔
    t.length < limit ∧ 0 ∉ t ∧ ∀ k ≤ t.length, mem (p + k) = t.getD k 0 := by
  induction limit generalizing p t with
  | zero => simp [textFrom]
  | succ limit ih =>
    rw [textFrom]
    by_cases hzero : mem p = 0
    · rw [if_pos hzero]
      constructor
      · rintro ⟨rfl⟩
        refine ⟨Nat.succ_pos _, List.not_mem_nil, fun k hk => ?_⟩
        rw [Nat.le_zero.mp hk]
        exact hzero
      · rintro ⟨-, hmem, hbytes⟩
        rcases t with _ | ⟨c, t⟩
        · rfl
        · have hc : mem p = c := hbytes 0 (Nat.zero_le _)
          exact absurd (hc.symm.trans hzero ▸ List.mem_cons_self) hmem
    · rw [if_neg hzero, Option.map_eq_some_iff]
      constructor
      · rintro ⟨t, ht, rfl⟩
        obtain ⟨hlen, hmem, hbytes⟩ := ih.mp ht
        refine ⟨Nat.succ_lt_succ hlen, ?_, fun k hk => ?_⟩
        · rw [List.mem_cons, not_or]
          exact ⟨fun heq => hzero heq.symm, hmem⟩
        · rcases k with _ | k
          · rfl
          · have hk' := hbytes k (Nat.le_of_succ_le_succ hk)
            rw [Nat.add_right_comm] at hk'
            exact hk'
      · rintro ⟨hlen, hmem, hbytes⟩
        rcases t with _ | ⟨c, t⟩
        · exact absurd (hbytes 0 (Nat.zero_le _)) hzero
        · have hc : mem p = c := hbytes 0 (Nat.zero_le _)
          refine ⟨t, ih.mpr ⟨Nat.lt_of_succ_lt_succ hlen, fun h => hmem (List.mem_cons_of_mem _ h),
            fun k hk => ?_⟩, by rw [hc]⟩
          have hk' := hbytes (k + 1) (Nat.succ_le_succ hk)
          rw [← Nat.add_assoc, Nat.add_right_comm] at hk'
          exact hk'

end CString
