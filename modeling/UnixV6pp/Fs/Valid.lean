import UnixV6pp.Fs.Account

/-!
# Valid tables

Beside right accounts the tables have entries that stay what they are: an inode of which
somebody holds a reference keeps its device and number, no two entries in use have the
same, and an inode whose last reference is being given back stays locked and is left
alone until that is done.

* `Valid` — the invariant of the tables.
* `Grip`, `Token` — what entitles a process to use an inode; `Valid.not_torn` — nobody is
  then giving back its last reference.
-/

namespace UnixV6pp

open Tally

namespace Books

variable {n : ℕ} {b : Books n} {p q : Fin n} {i : Slot}

/-- Somebody owns a reference to the inode who does not have it in hand. -/
def Owned (b : Books n) (i : Slot) : Prop :=
  (∃ q, b.cwd q = some i) ∨ (∃ f, b.owner f = some i) ∨ (∃ t, b.textOwner t = some i) ∨
    b.root = i ∨ 0 < b.lost i

/-- The parts of the sum. -/
theorem parts_nonneg (b : Books n) (i : Slot) : 0 ≤ ∑ q, (b.refs q i : ℤ) ∧ 0 ≤ tally b.cwd i ∧
    0 ≤ tally b.owner i ∧ 0 ≤ tally b.textOwner i ∧ 0 ≤ tally (fun _ : Unit => some b.root) i :=
  ⟨Finset.sum_nonneg fun _ _ => Int.natCast_nonneg _, tally_nonneg _ _, tally_nonneg _ _,
    tally_nonneg _ _, tally_nonneg _ _⟩

theorem refs_le_holders : (b.refs p i : ℤ) ≤ b.holders i := by
  have hle := le_sum b.refs p i
  obtain ⟨-, hcwd, howner, htext, hroot⟩ := parts_nonneg b i
  unfold holders
  omega

theorem refs_add_le_holders (hpq : p ≠ q) : (b.refs p i : ℤ) + b.refs q i ≤ b.holders i := by
  have hle := add_le_sum b.refs hpq i
  obtain ⟨-, hcwd, howner, htext, hroot⟩ := parts_nonneg b i
  unfold holders
  omega

theorem Owned.refs_lt_holders (h : b.Owned i) (p : Fin n) : (b.refs p i : ℤ) + 1 ≤ b.holders i := by
  have hle := le_sum b.refs p i
  obtain ⟨-, hcwd, howner, htext, hroot⟩ := parts_nonneg b i
  unfold holders
  rcases h with ⟨q, hq⟩ | ⟨f, hf⟩ | ⟨t, ht⟩ | hr | hl
  · have hone := one_le_tally hq
    omega
  · have hone := one_le_tally hf
    omega
  · have hone := one_le_tally ht
    omega
  · have hone : 1 ≤ tally (fun _ : Unit => some b.root) i :=
      one_le_tally (x := ()) (congrArg some hr)
    omega
  · omega

theorem Ready.count_pos {src : Source} (h : b.Ready p i src) (hb : b.Ok) : 0 < b.count i := by
  have howned : b.Owned i → 0 < b.count i := by
    intro h
    have hlt := h.refs_lt_holders p
    rw [hb.holders]
    omega
  cases src with
  | hand =>
    have hle := refs_le_holders (b := b) (p := p) (i := i)
    have hpos : 0 < b.refs p i := h
    rw [hb.holders]
    omega
  | file f => exact howned (.inr (.inl ⟨f, h.1⟩))
  | text t => exact howned (.inr (.inr (.inl ⟨t, h.1⟩)))
  | cdir new => exact howned (.inl ⟨p, h.1⟩)

end Books

/-- A process that is gone has nothing in hand. -/
def Process.GoneOk (q : Process) : Prop :=
  q.live = false → q.loc.tearing = none ∧ Kernel.Settled q.loc

namespace Kernel

variable {n : ℕ}

/-- The device and the number of the inodes in the table. -/
def ident (s : Kernel n) (i : Slot) : ℤ × ℤ := ((s.inode i).iDev, (s.inode i).iNumber)

/-- The inode belongs to something that keeps it for the process. -/
def ViaOk (s : Kernel n) (p : Fin n) (i : Slot) : Via → Prop
  | .cwd => s.books.cwd p = some i
  | .root => s.rootDirInode = i
  | .file fd f => s.books.fds p fd = some f ∧ s.books.owner f = some i

/-- The tables are as they should be. -/
structure Valid (s : Kernel n) : Prop where
  books : s.books.Ok
  /-- The last reference to an inode is given back behind its lock. -/
  sealed : ∀ p i src, s.books.tearing p = some (i, src) →
    (s.inode i).iCount = 1 ∧ (s.inode i).locked = true
  unique : ∀ i j, (s.inode i).iCount ≠ 0 → (s.inode j).iCount ≠ 0 → s.ident i = s.ident j → i = j
  known : ∀ p i, 0 < s.books.refs p i → (s.proc p).ids i = s.ident i
  borrowed : ∀ p b, (s.loc p).borrowed = some b →
    (b.iDev, b.iNumber) = s.ident b.slot ∧ s.ViaOk p b.slot b.via
  gone : ∀ p, (s.proc p).GoneOk

/-- Something keeps the inode in the table while the process uses it: a reference in hand, or one
that others keep for it, or one that was left behind for good. -/
def Grip (s : Kernel n) (p : Fin n) (i : Slot) : Prop :=
  0 < s.books.refs p i ∨ (∃ b, (s.loc p).borrowed = some b ∧ b.slot = i) ∨ 0 < s.lost i

/-- The process may use the inode, which may also be its current directory. -/
def Token (s : Kernel n) (p : Fin n) (i : Slot) : Prop := s.Grip p i ∨ s.books.cwd p = some i

variable {s s' : Kernel n} {p q : Fin n} {i j : Slot} {src : Source} {v : Via}

theorem ViaOk.owned (h : s.ViaOk p i v) : s.books.Owned i := by
  cases v with
  | cwd => exact .inl ⟨p, h⟩
  | root => exact .inr (.inr (.inr (.inl h)))
  | file fd f => exact .inr (.inl ⟨f, h.2⟩)

namespace Valid

theorem token_cases (h : s.Valid) (htoken : s.Token p i) :
    0 < s.books.refs p i ∨ s.books.Owned i := by
  rcases htoken with (hrefs | ⟨b, hb, rfl⟩ | hlost) | hcwd
  · exact .inl hrefs
  · exact .inr (h.borrowed p b hb).2.owned
  · exact .inr (.inr (.inr (.inr (.inr hlost))))
  · exact .inr (.inl ⟨p, hcwd⟩)

theorem count_pos (h : s.Valid) (htoken : s.Token p i) : 0 < (s.inode i).iCount := by
  change 0 < s.books.count i
  rw [h.books.holders]
  rcases h.token_cases htoken with hrefs | howned
  · have hle := Books.refs_le_holders (b := s.books) (p := p) (i := i)
    omega
  · have hlt := howned.refs_lt_holders p
    omega

/-- An inode of which another reference is owned is not being torn down. -/
theorem not_torn_of_owned (h : s.Valid) (howned : s.books.Owned i) :
    s.books.tearing q ≠ some (i, src) := by
  intro hq
  have hlt := howned.refs_lt_holders q
  have hrefs := (h.books.torn q i src hq).1
  have hone : s.books.count i = 1 := (h.sealed q i src hq).1
  rw [h.books.holders] at hone
  omega

theorem eq_of_torn (h : s.Valid) (hrefs : 0 < s.books.refs p i)
    (hq : s.books.tearing q = some (i, src)) : q = p := by
  by_contra hne
  have hlt := Books.refs_add_le_holders (b := s.books) (i := i) hne
  have hrefs' := (h.books.torn q i src hq).1
  have hone : s.books.count i = 1 := (h.sealed q i src hq).1
  rw [h.books.holders] at hone
  omega

/-- **Whoever may use an inode is not disturbed** by another process giving back its last
reference. -/
theorem not_torn (h : s.Valid) (htoken : s.Token p i) (hpq : q ≠ p) :
    s.books.tearing q ≠ some (i, src) := by
  rcases h.token_cases htoken with hrefs | howned
  · exact fun hq => hpq (h.eq_of_torn hrefs hq)
  · exact h.not_torn_of_owned howned

/-- Before a reference is given back nobody else is giving back the last one. -/
theorem not_torn_of_ready (h : s.Valid) (hready : s.books.Ready p i src)
    (htearing : s.books.tearing p = none) {src' : Source} :
    s.books.tearing q ≠ some (i, src') := by
  have howned : s.books.Owned i → s.books.tearing q ≠ some (i, src') := h.not_torn_of_owned
  cases src with
  | hand =>
    intro hq
    obtain rfl := h.eq_of_torn hready hq
    rw [htearing] at hq
    cases hq
  | file f => exact howned (.inr (.inl ⟨f, hready.1⟩))
  | text t => exact howned (.inr (.inr (.inl ⟨t, hready.1⟩)))
  | cdir new => exact howned (.inl ⟨p, hready.1⟩)

/-- What stays the same in a step that loads no inode. -/
theorem of_ident (h : s.Valid) (hbooks : s'.books.Ok)
    (hident : ∀ i, (s'.inode i).iCount ≠ 0 → s'.ident i = s.ident i)
    (hcount : ∀ i, (s'.inode i).iCount ≠ 0 → (s.inode i).iCount ≠ 0)
    (hsealed : ∀ p i src, s'.books.tearing p = some (i, src) →
      (s'.inode i).iCount = 1 ∧ (s'.inode i).locked = true)
    (hknown : ∀ p i, 0 < s'.books.refs p i → (s'.proc p).ids i = s.ident i)
    (hborrowed : ∀ p b, (s'.loc p).borrowed = some b →
      (b.iDev, b.iNumber) = s.ident b.slot ∧ s'.ViaOk p b.slot b.via)
    (hgone : ∀ p, (s'.proc p).GoneOk) : s'.Valid where
  books := hbooks
  sealed := hsealed
  unique i j hi hj heq := by
    rw [hident i hi, hident j hj] at heq
    exact h.unique i j (hcount i hi) (hcount j hj) heq
  known p i hrefs := by
    have hle := Books.refs_le_holders (b := s'.books) (p := p) (i := i)
    rw [hident]
    · exact hknown p i hrefs
    · change s'.books.count i ≠ 0
      rw [hbooks.holders]
      omega
  borrowed p b hb := by
    obtain ⟨hid, hvia⟩ := hborrowed p b hb
    have hlt := hvia.owned.refs_lt_holders p
    rw [hident]
    · exact ⟨hid, hvia⟩
    · change s'.books.count b.slot ≠ 0
      rw [hbooks.holders]
      omega
  gone := hgone

end Valid
end Kernel
end UnixV6pp
