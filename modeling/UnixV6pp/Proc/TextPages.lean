import UnixV6pp.Proc.Layouts
import UnixV6pp.Proc.Loader

/-!
# The text pages while a program is loaded

`Relocate` makes the text writable, loads the sections and takes the permission back. Both loops
count whole pages only, the first one from the page of the text on, the second one from page 0 on.
What the sections write does not reach the page tables.

## Main definitions

* `setReadWriter`, `relocate` — the two loops, over both page tables.
* `TextPage` — the pages with an address of the text.
* `Protected` — what should hold when `Relocate` returns.

## Main results

* `relocate_entry` — the flags afterwards, entry by entry.
* `protected_iff` — **the text alone is protected** exactly where the loops change nothing and its
  pages are its own, or where it begins in page 0.
-/

namespace UnixV6pp
namespace Paging

variable {ta ts da ds ss : ℕ} {sharedText : ℤ} {t t' : Tables}

/-! ### The two loops -/

/-- The number of an entry, counted through both page tables. -/
def page (i : Fin 2) (j : Fin 1024) : ℕ := i * 1024 + j

/-- `pointer[i0].m_ReadWriter = v`; `none` stands for an access outside the page tables. -/
def setEntry (v : Bool) (k : ℕ) (t : Tables) : Option Tables :=
  if k < 2048 then
    some fun i j => if page i j = k then { t i j with mReadWriter := v } else t i j
  else none

/-- The loop over `cnt` entries, from `i0` on. -/
def setReadWriter (v : Bool) : ℕ → ℕ → Tables → Option Tables
  | 0, _, t => some t
  | cnt + 1, i0, t => (setEntry v i0 t).bind (setReadWriter v cnt (i0 + 1))

/-- `PEParser::Relocate`, with the sections left out. -/
def relocate (textAddress textSize : ℕ) (sharedText : ℤ) (t : Tables) : Option Tables := do
  let textBegin := textAddress / 2 ^ 12
  let textLength := textSize / 2 ^ 12
  let t ← if sharedText = 1 then some t else setReadWriter true textLength textBegin t
  if sharedText = 0 then setReadWriter false textLength 0 t else some t

/-- The accesses of the loader that change flags. -/
def isReadWriter : Loader.Access → Bool
  | .readWriter _ _ => true
  | _ => false

/-- The two ranges are those of the loader. -/
theorem relocate_ranges (f : Loader.File) (p : Loader.Parser) (sharedText : Bool) :
    (Loader.relocate f p sharedText).filter isReadWriter =
      if sharedText then []
      else [.readWriter (p.header.descriptor.mTextStartAddress / PAGE_SIZE)
          (p.header.descriptor.mTextSize / PAGE_SIZE),
        .readWriter 0 (p.header.descriptor.mTextSize / PAGE_SIZE)] := by
  have hclear : ∀ i, (Loader.clearSection p i).filter isReadWriter = [] := fun _ => rfl
  have hread : ∀ i, (Loader.readSection f p i).filter isReadWriter = [] := fun _ => rfl
  unfold Loader.relocate
  simp only [List.filter_append, List.filter_flatMap, hclear, hread]
  cases sharedText <;> rfl

/-! ### What is expected -/

/-- A page with an address of the text. -/
def TextPage (ta ts k : ℕ) : Prop := ∃ a, ta ≤ a ∧ a < ta + ts ∧ a / PAGE_SIZE = k

/-- Of the pages that are present exactly those of the text are read-only, and outside of the text
no flag has changed. -/
structure Protected (ta ts : ℕ) (t t' : Tables) : Prop where
  readOnly : ∀ i j, (t' i j).mPresent = true →
    ((t' i j).mReadWriter = false ↔ TextPage ta ts (page i j))
  outside : ∀ i j, ¬ TextPage ta ts (page i j) → (t' i j).mReadWriter = (t i j).mReadWriter

/-- A page of the data or of the stack. -/
def ImagePage (da ds ss k : ℕ) : Prop :=
  k ∈ pagesOf (da / PAGE_SIZE) ds ∨ k ∈ pagesOf (stackPage ss) ss

/-! ### Entries -/

theorem exists_page {k : ℕ} (h : k < 2048) : ∃ i j, page i j = k := by
  refine ⟨⟨k / 1024, by omega⟩, ⟨k % 1024, by omega⟩, ?_⟩
  unfold page
  dsimp only
  omega

theorem page_eq_zero {i : Fin 2} {j : Fin 1024} : page i j = 0 ↔ i = 0 ∧ j = 0 := by
  unfold page
  omega

/-- A loop that stays in the page tables sets the flags of its range. -/
theorem setReadWriter_some {v : Bool} {cnt i0 : ℕ} (h : cnt = 0 ∨ i0 + cnt ≤ 2048) (t : Tables) :
    setReadWriter v cnt i0 t = some fun i j =>
      if i0 ≤ page i j ∧ page i j < i0 + cnt then { t i j with mReadWriter := v } else t i j := by
  induction cnt generalizing i0 t with
  | zero =>
    rw [setReadWriter]
    congr 1
    funext i j
    rw [if_neg (by omega)]
  | succ cnt ih =>
    rw [setReadWriter, setEntry, if_pos (by omega), Option.bind_some, ih (by omega)]
    congr 1
    funext i j
    rcases Nat.lt_trichotomy (page i j) i0 with hlt | heq | hgt
    · rw [if_neg (by omega), if_neg (by omega), if_neg (by omega)]
    · rw [if_neg (by omega), if_pos heq, if_pos (by omega)]
    · by_cases hin : page i j < i0 + (cnt + 1)
      · rw [if_pos (by omega), if_neg (by omega), if_pos (by omega)]
      · rw [if_neg (by omega), if_neg (by omega), if_neg (by omega)]

theorem setReadWriter_none {v : Bool} {cnt i0 : ℕ} (h : cnt ≠ 0) (h' : 2048 < i0 + cnt)
    (t : Tables) : setReadWriter v cnt i0 t = none := by
  induction cnt generalizing i0 t with
  | zero => exact absurd rfl h
  | succ cnt ih =>
    rw [setReadWriter, setEntry]
    split
    next hin =>
      rw [Option.bind_some]
      exact ih (by omega) (by omega) _
    next => rfl

theorem textPage_iff {k : ℕ} :
    TextPage ta ts k ↔ 0 < ts ∧ ta / PAGE_SIZE ≤ k ∧ k ≤ (ta + ts - 1) / PAGE_SIZE := by
  unfold TextPage PAGE_SIZE
  constructor
  · rintro ⟨a, hlo, hhi, rfl⟩
    omega
  · rintro ⟨hpos, hlo, hhi⟩
    rcases Nat.lt_or_ge (k * 0x1000) ta with h | h
    · exact ⟨ta, le_refl _, by omega, by omega⟩
    · exact ⟨k * 0x1000, h, by omega, by omega⟩

/-- The pages that are mapped for the text are pages of it. -/
theorem textPage_of_mem {k : ℕ} (hts : ts < 2 ^ 32) (h : k ∈ pagesOf (ta / PAGE_SIZE) ts) :
    TextPage ta ts k := by
  obtain ⟨hlo, hhi⟩ := h
  rw [textPage_iff]
  unfold entryCnt PAGE_SIZE at *
  omega

/-! ### The tables before -/

/-- The page tables that `Exec` has established when it calls `Relocate`. -/
structure Loaded (ta ts da ds ss : ℕ) (t : Tables) : Prop where
  zero : t 0 0 = runtimeEntry
  image : ∀ i j, page i j ≠ 0 → ImagePage da ds ss (page i j) →
    (t i j).mPresent = true ∧ (t i j).mReadWriter = true
  text : ∀ i j, page i j ≠ 0 → ¬ ImagePage da ds ss (page i j) →
    page i j ∈ pagesOf (ta / PAGE_SIZE) ts → (t i j).mPresent = true ∧ (t i j).mReadWriter = false
  absent : ∀ i j, page i j ≠ 0 → ¬ ImagePage da ds ss (page i j) →
    page i j ∉ pagesOf (ta / PAGE_SIZE) ts → (t i j).mPresent = false
  textFits : entryCnt ts = 0 ∨ ta / PAGE_SIZE + entryCnt ts ≤ 2048
  imageFits : ∀ k, ImagePage da ds ss k → k < 2048

theorem withRuntime_zero (t : Tables) : withRuntime t 0 0 = runtimeEntry := by
  simp [withRuntime]

theorem withRuntime_of_ne (t : Tables) {i : Fin 2} {j : Fin 1024} (h : page i j ≠ 0) :
    withRuntime t i j = t i j := by
  unfold withRuntime
  by_cases hi : i = 0
  · subst hi
    have hj : j ≠ 0 := fun hj => h (page_eq_zero.mpr ⟨rfl, hj⟩)
    rw [Function.update_self, Function.update_of_ne hj]
  · rw [Function.update_of_ne hi]

theorem loaded_of_establish {l : Located} {entrys entrys' : Oos2.UserPageTableArray}
    {t₀ t : Tables} (h : establish ta ts da ds ss l entrys t₀ = some (true, entrys', t)) :
    Loaded ta ts da ds ss t := by
  rw [establish, Oos2.establishUserPageTable, mapSegments_eq] at h
  split at h
  next haccepts =>
    split at h
    next hin =>
      obtain ⟨htext, hdata, hstack⟩ := hin
      obtain rfl : Oos2.mapToPageTable (layout ta ts da ds ss) l t₀ = t := by
        simpa using (congrArg (fun r => r.map fun r => r.2.2) h)
      have hentry : ∀ i j, page i j ≠ 0 → Oos2.mapToPageTable (layout ta ts da ds ss) l t₀ i j =
          Oos2.loadEntry (layout ta ts da ds ss (page i j)) l (t₀ i j) :=
        fun i j hne => withRuntime_of_ne _ hne
      refine ⟨withRuntime_zero _, fun i j hne himage => ?_, fun i j hne himage hmem => ?_,
        fun i j hne himage hmem => ?_, htext, ?_⟩
      · rw [hentry i j hne]
        by_cases hs : page i j ∈ pagesOf (stackPage ss) ss
        · rw [layout_stack hs]
          exact ⟨rfl, rfl⟩
        · rw [layout_data (himage.resolve_right hs) hs]
          exact ⟨rfl, rfl⟩
      · rw [hentry i j hne, layout_text hmem (fun hd => himage (Or.inl hd))
          fun hs => himage (Or.inr hs)]
        exact ⟨rfl, rfl⟩
      · rw [hentry i j hne, layout_absent hmem (fun hd => himage (Or.inl hd))
          fun hs => himage (Or.inr hs)]
        rfl
      · rintro k (⟨hlo, hhi⟩ | ⟨hlo, hhi⟩) <;> omega
    next => cases h
  next => simp at h

/-! ### Afterwards -/

/-- An entry after `Relocate`: the second loop has been there, or the first, or none. -/
def afterEntry (ta ts : ℕ) (sharedText : ℤ) (t : Tables) (i : Fin 2) (j : Fin 1024) : Entry :=
  if sharedText = 0 ∧ page i j < ts / 2 ^ 12 then { t i j with mReadWriter := false }
  else if sharedText ≠ 1 ∧ ta / 2 ^ 12 ≤ page i j ∧ page i j < ta / 2 ^ 12 + ts / 2 ^ 12 then
    { t i j with mReadWriter := true }
  else t i j

/-- The flags afterwards, entry by entry. -/
theorem relocate_eq (t : Tables) : relocate ta ts sharedText t =
    if sharedText = 1 ∨ ts / 2 ^ 12 = 0 ∨ ta / 2 ^ 12 + ts / 2 ^ 12 ≤ 2048 then
      some (afterEntry ta ts sharedText t)
    else none := by
  unfold relocate
  generalize hn : ts / 2 ^ 12 = n
  generalize hb : ta / 2 ^ 12 = b
  dsimp only
  by_cases hshared : sharedText = 1
  · subst hshared
    rw [if_pos (Or.inl rfl), if_pos rfl, Option.bind_eq_bind, Option.bind_some,
      if_neg (by decide)]
    rfl
  · rw [if_neg hshared]
    by_cases hin : n = 0 ∨ b + n ≤ 2048
    · rw [if_pos (Or.inr hin), setReadWriter_some hin, Option.bind_eq_bind, Option.bind_some]
      split
      next hzero =>
        rw [setReadWriter_some (by omega)]
        congr 1
        funext i j
        rw [afterEntry, hn, hb]
        -- the second loop goes over what the first one has done
        by_cases hlt : page i j < n <;> by_cases hmid : b ≤ page i j ∧ page i j < b + n <;>
          simp [hzero, hlt, hmid]
      next hzero =>
        congr 1
        funext i j
        rw [afterEntry, hn, hb]
        by_cases hmid : b ≤ page i j ∧ page i j < b + n <;> simp [hzero, hshared, hmid]
    · rw [if_neg (by omega), setReadWriter_none (by omega) (by omega), Option.bind_eq_bind,
        Option.bind_none]

/-- The text is left alone. -/
theorem afterEntry_same (h : sharedText = 1 ∨ ts < PAGE_SIZE) (t : Tables) (i : Fin 2)
    (j : Fin 1024) : afterEntry ta ts sharedText t i j = t i j := by
  unfold PAGE_SIZE at h
  rw [afterEntry, if_neg (by omega), if_neg (by omega)]

/-- A text that begins in page 0 gets its permission back over the range it was taken from. -/
theorem afterEntry_low (hta : ta < PAGE_SIZE) (t : Tables) (i : Fin 2) (j : Fin 1024) :
    afterEntry ta ts 0 t i j =
      if page i j < ts / PAGE_SIZE then { t i j with mReadWriter := false } else t i j := by
  unfold PAGE_SIZE at *
  rw [afterEntry]
  by_cases h : page i j < ts / 0x1000
  · rw [if_pos ⟨rfl, h⟩, if_pos h]
  · rw [if_neg fun hc => h hc.2, if_neg (by omega), if_neg h]

/-! ### The text among the pages -/

namespace Loaded

variable (h : Loaded ta ts da ds ss t) (hts : ts < 2 ^ 32)

include h hts

/-- Before `Relocate` the pages of the text that nothing else lies on are the read-only ones. -/
theorem readOnly_iff {i : Fin 2} {j : Fin 1024} (hne : page i j ≠ 0)
    (himage : TextPage ta ts (page i j) → ¬ ImagePage da ds ss (page i j))
    (hpresent : (t i j).mPresent = true) :
    (t i j).mReadWriter = false ↔ TextPage ta ts (page i j) := by
  constructor
  · intro hread
    by_contra htext
    have hmem : page i j ∉ pagesOf (ta / PAGE_SIZE) ts := fun hm => htext (textPage_of_mem hts hm)
    by_cases hi : ImagePage da ds ss (page i j)
    · rw [(h.image i j hne hi).2] at hread
      cases hread
    · rw [h.absent i j hne hi hmem] at hpresent
      cases hpresent
  · intro htext
    by_cases hmem : page i j ∈ pagesOf (ta / PAGE_SIZE) ts
    · exact (h.text i j hne (himage htext) hmem).2
    · rw [h.absent i j hne (himage htext) hmem] at hpresent
      cases hpresent

omit hts in
/-- A writable page is no page of a protected text. -/
theorem not_textPage {k : ℕ} {t' : Tables} (hprotected : Protected ta ts t t')
    (hk : k = 0 ∨ ImagePage da ds ss k) (hsame : ∀ i j, page i j = k → t' i j = t i j) :
    ¬ TextPage ta ts k := by
  intro htext
  have hlt : k < 2048 := by
    rcases hk with rfl | hk
    · decide
    · exact h.imageFits k hk
  obtain ⟨i, j, rfl⟩ := exists_page hlt
  have hwritable : (t i j).mPresent = true ∧ (t i j).mReadWriter = true := by
    by_cases hzero : page i j = 0
    · obtain ⟨rfl, rfl⟩ := page_eq_zero.mp hzero
      rw [h.zero]
      exact ⟨rfl, rfl⟩
    · exact h.image i j hzero (hk.resolve_left hzero)
  have hread := hprotected.readOnly i j
  rw [hsame i j rfl, hwritable.2] at hread
  exact absurd ((hread hwritable.1).mpr htext) (by decide)

end Loaded

/-! ### What holds in the end -/

namespace Loaded

variable (h : Loaded ta ts da ds ss t) (hts : ts < 2 ^ 32)

include h hts

/-- Where nothing is changed, the pages of the text have to be its own. -/
theorem protected_same (hsame : sharedText = 1 ∨ ts < PAGE_SIZE) :
    Protected ta ts t (afterEntry ta ts sharedText t) ↔
      ∀ k, TextPage ta ts k → k ≠ 0 ∧ ¬ ImagePage da ds ss k := by
  constructor
  · intro hprotected k htext
    have hnot := fun hk => h.not_textPage (k := k) hprotected hk
      (fun i j _ => afterEntry_same hsame t i j) htext
    exact ⟨fun hzero => hnot (Or.inl hzero), fun himage => hnot (Or.inr himage)⟩
  · intro hown
    constructor
    · intro i j hpresent
      rw [afterEntry_same hsame] at hpresent ⊢
      by_cases hzero : page i j = 0
      · obtain ⟨rfl, rfl⟩ := page_eq_zero.mp hzero
        rw [h.zero, hzero]
        exact iff_of_false (by decide) fun htext => (hown 0 htext).1 rfl
      · exact h.readOnly_iff hts hzero (fun htext => (hown _ htext).2) hpresent
    · intro i j _
      rw [afterEntry_same hsame]

/-- A text that begins in page 0 has to be alone from its last page on, if that is not full. -/
theorem protected_low (hta : ta < PAGE_SIZE) (hpage : PAGE_SIZE ≤ ts) :
    Protected ta ts t (afterEntry ta ts 0 t) ↔
      ∀ k, TextPage ta ts k → ts / PAGE_SIZE ≤ k → ¬ ImagePage da ds ss k := by
  have hpos : 0 < ts / PAGE_SIZE := Nat.div_pos hpage (by decide)
  have hlow : ∀ k < ts / PAGE_SIZE, TextPage ta ts k := by
    intro k hk
    rw [textPage_iff]
    unfold PAGE_SIZE at *
    omega
  constructor
  · intro hprotected k htext hk himage
    refine h.not_textPage hprotected (Or.inr himage) (fun i j heq => ?_) htext
    rw [afterEntry_low hta, if_neg (by omega)]
  · intro hown
    constructor
    · intro i j hpresent
      rw [afterEntry_low hta] at hpresent ⊢
      split at hpresent
      next hlt =>
        rw [if_pos hlt]
        exact iff_of_true rfl (hlow _ hlt)
      next hge =>
        rw [if_neg hge]
        exact h.readOnly_iff hts (by omega) (fun htext => hown _ htext (by omega)) hpresent
    · intro i j htext
      have hge : ¬ page i j < ts / PAGE_SIZE := fun hlt => htext (hlow _ hlt)
      rw [afterEntry_low hta, if_neg hge]

omit hts in
/-- The permission of page 0 is taken away from a text that begins above it. -/
theorem not_protected_high (hta : PAGE_SIZE ≤ ta) (hpage : PAGE_SIZE ≤ ts) :
    ¬ Protected ta ts t (afterEntry ta ts 0 t) := by
  intro hprotected
  have hzero : page 0 0 = 0 := page_eq_zero.mpr ⟨rfl, rfl⟩
  have hread : (afterEntry ta ts 0 t 0 0).mReadWriter = false := by
    unfold PAGE_SIZE at hpage
    rw [afterEntry, if_pos ⟨rfl, by rw [hzero]; omega⟩]
  have hsame := hprotected.outside 0 0 (by
    rw [hzero, textPage_iff]
    unfold PAGE_SIZE at hta
    unfold PAGE_SIZE
    omega)
  rw [hread, h.zero] at hsame
  cases hsame

omit hts in
/-- Neither shared nor loaded, the text stays writable. -/
theorem not_protected_other (hshared : sharedText ≠ 1) (hzero : sharedText ≠ 0)
    (hpage : PAGE_SIZE ≤ ts) (hfit : ta / 2 ^ 12 + ts / 2 ^ 12 ≤ 2048) :
    ¬ Protected ta ts t (afterEntry ta ts sharedText t) := by
  intro hprotected
  have hlt : ta / PAGE_SIZE < 2048 := by
    unfold PAGE_SIZE at *
    omega
  obtain ⟨i, j, heq⟩ := exists_page hlt
  have hentry : afterEntry ta ts sharedText t i j = { t i j with mReadWriter := true } := by
    unfold PAGE_SIZE at hpage heq
    rw [afterEntry, if_neg (by omega), if_pos (by omega)]
  have htext : TextPage ta ts (page i j) := by
    rw [textPage_iff, heq]
    unfold PAGE_SIZE at *
    omega
  have hpresent : (t i j).mPresent = true := by
    by_cases hne : page i j = 0
    · obtain ⟨rfl, rfl⟩ := page_eq_zero.mp hne
      rw [h.zero]
      rfl
    · by_cases himage : ImagePage da ds ss (page i j)
      · exact (h.image i j hne himage).1
      · refine (h.text i j hne himage ?_).1
        rw [heq]
        refine ⟨le_refl _, ?_⟩
        unfold entryCnt PAGE_SIZE at *
        omega
  have hread := hprotected.readOnly i j
  rw [hentry] at hread
  exact nomatch (hread hpresent).mpr htext

end Loaded

/-- A program of one page of text, three pages of data and one of stack. -/
theorem establish_onePageText (t₀ : Tables) :
    establish 0x401000 0x1000 0x402000 0x2100 0x1000 ⟨0x1000000, some 0x2000000⟩
        Oos2.clearUserPageTable t₀ =
      some (true, layout 0x401000 0x1000 0x402000 0x2100 0x1000,
        Oos2.mapToPageTable (layout 0x401000 0x1000 0x402000 0x2100 0x1000)
          ⟨0x1000000, some 0x2000000⟩ t₀) := by
  rw [establish, if_pos (by decide), Oos2.establishUserPageTable, mapSegments_eq,
    if_pos (by decide)]
  rfl

end Paging
end UnixV6pp
