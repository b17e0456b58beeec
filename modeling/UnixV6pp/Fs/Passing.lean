import UnixV6pp.Fs.AnyBytes

/-!
# Passing records

In a well formed directory a search goes from record to record also over free records with further
units, as long as each lies in one block: only `m_Count` is too large behind them, so that a record
that is taken is still found.

## Main definitions

* `Taken` — a record in use of which `NameI` thinks it has the name.
* `Awake` — the search is not stopped by a free record.
* `InStep` — the search is at the head of a record.

## Main results

* `Shows.pass` — the records in front of the one that is taken are passed.
* `Shows.awake`, `Shows.takes` — **a search that ends is not stopped**, and **takes a record**.
-/

namespace UnixV6pp
namespace FileManager

open Words FileSystem Inode BufferManager DirectoryEntry

/-! ### The records of a search -/

/-- The record at `o` is in use, and `NameI` takes it for the name in `dbuf`. -/
def Taken (dbuf b : ℕ → UInt8) (o : ℕ) : Prop := ¬ IsFree b o ∧ Begins dbuf b o

instance (dbuf b : ℕ → UInt8) (o : ℕ) : Decidable (Taken dbuf b o) :=
  inferInstanceAs (Decidable (_ ∧ _))

/-- The records in front of the first one that is taken. -/
def passed (dbuf b : ℕ → UInt8) (rs : List ℕ) : List ℕ := rs.takeWhile (¬ Taken dbuf b ·)

/-- The free record at `r` is large enough if `L` characters of the path are left. -/
def Large (b : ℕ → UInt8) (L r : ℕ) : Prop := IsFree b r ∧ (L + 7) / 32 ≤ unitsAt b r

instance (b : ℕ → UInt8) (L r : ℕ) : Decidable (Large b L r) :=
  inferInstanceAs (Decidable (_ ∧ _))

/-- The unit behind the part of the record at `r` that would be used. -/
def unitBehind (L r : ℕ) : ℕ := r + 32 + 32 * ((L + 7) / 32)

/-- **The search is not stopped by a free record** of the list: the unit behind the first one that
is large enough is in the first block or not in the block in hand. -/
def Awake (dirp : List UInt8) (b : ℕ → UInt8) (rs : List ℕ) : Prop :=
  (∃ r ∈ rs, IsFree b r) → ∃ L, stringLength dirp = .ok L ∧
    ∀ r, rs.find? (Large b L ·) = some r → unitBehind L r < 512 ∨ unitBehind L r / 512 ≠ r / 512

/-! ### In step with the records -/

/-- The search is at the head of the record at `o`, with so many units too many in `m_Count`. -/
structure InStep (f : FlatFile) (o slack : ℕ) (t : Spot) : Prop where
  mOffset_eq : t.u.mOffset = o
  mCount_eq : 32 * t.u.mCount = f.size - o + 32 * slack
  slack_le : 32 * slack ≤ o
  cur_eq : o % 512 ≠ 0 → t.cur = o / 512

section InStep

variable {f : FlatFile} {o slack n index : ℕ} {t t' : Spot}

/-- The search starts at the head of the first record. -/
theorem inStep_start (h32 : 32 ∣ f.size) (u : User) (dbuf : ℕ → UInt8) (dirp : List UInt8) :
    InStep f 0 0 (Spot.start f u dbuf dirp) := by
  refine ⟨rfl, ?_, le_rfl, fun h => absurd rfl h⟩
  change (32 * ((f.size / 32 : ℕ) : ℤ)) = _
  omega

theorem InStep.block_eq (h : InStep f o slack t) : t.block = o / 512 := by
  unfold Spot.block
  rw [h.mOffset_eq]
  by_cases hmod : o % 512 = 0
  · rw [if_pos (by omega)]
    omega
  · rw [if_neg (by omega)]
    exact h.cur_eq hmod

theorem InStep.place_eq (h : InStep f o slack t) : t.place = o := by
  unfold Spot.place
  rw [h.block_eq, h.mOffset_eq]
  omega

theorem InStep.inside (h : InStep f o slack t) (ho : o < f.size) : t.Inside f.size := by
  refine ⟨?_, ?_, ?_⟩
  · rw [h.mOffset_eq]
    omega
  · rw [h.mOffset_eq]
    omega
  · rw [h.place_eq]
    exact ho

theorem InStep.mCount_ne_zero (h : InStep f o slack t) (ho : o < f.size) : t.u.mCount ≠ 0 := by
  have hcount := h.mCount_eq
  omega

/-- The search has read the unit at `o`. -/
theorem InStep.next (h : InStep f o slack t) (hsize : f.size ≤ maxFileSize) (ho : o < f.size)
    (h32 : 32 ∣ o) {u : User} (hoff : u.mOffset = t.u.mOffset) (hcount : u.mCount = t.u.mCount) :
    InStep f (o + 32) slack { t with u := nextUnit u, cur := t.block } := by
  have hsmall : maxFileSize < 2 ^ 30 := by decide
  have hcount₀ := h.mCount_eq
  have hslack := h.slack_le
  refine ⟨?_, ?_, by omega, fun hmod => ?_⟩
  · change int32 (u.mOffset + 32) = _
    rw [hoff, h.mOffset_eq, int32_of_bounds (by omega) (by omega)]
    omega
  · change 32 * int32 (u.mCount - 1) = _
    rw [int32_of_bounds (by omega) (by omega)]
    omega
  · change t.block = _
    rw [h.block_eq]
    omega

/-- What the spot keeps while a record is read. -/
structure Keeps (t t' : Spot) : Prop where
  uDirp_eq : t'.u.uDirp = t.u.uDirp
  uDbuf_eq : t'.u.uDbuf = t.u.uDbuf
  uDent_eq : t'.u.uDent = t.u.uDent
  free_eq : t'.freeEntryOffset = t.freeEntryOffset

/-- **The further units** of a record. -/
theorem InStep.readAdditions (h : InStep f o slack t) (hsize : f.size ≤ maxFileSize)
    (h32 : 32 ∣ o) (index : ℕ) (hend : o + 32 * n ≤ f.size) :
    t.AdditionsInside f n index ∧ InStep f (o + 32 * n) slack (t.readAdditions f.bytes n index) ∧
      Keeps t (t.readAdditions f.bytes n index) ∧
      ∀ k, (t.readAdditions f.bytes n index).u.additionEntry k =
        if 32 * index ≤ k ∧ k < 32 * (index + n) then f.bytes (o + (k - 32 * index))
        else t.u.additionEntry k := by
  induction n generalizing index o t with
  | zero =>
    refine ⟨trivial, h, ⟨rfl, rfl, rfl, rfl⟩, fun k => ?_⟩
    rw [if_neg (by omega)]
    rfl
  | succ n ih =>
    have ho : o < f.size := by omega
    have h₁ : InStep f (o + 32) slack (t.readAddition f.bytes index) :=
      h.next hsize ho h32 (u := { t.u with
        additionEntry := fun k => if 32 * index ≤ k ∧ k < 32 * index + 32
          then f.bytes (t.place + (k - 32 * index)) else t.u.additionEntry k }) rfl rfl
    obtain ⟨hin, hstep, hkeeps, hadd⟩ := ih h₁ (by omega) (index + 1) (by omega)
    have hsum : o + 32 * (n + 1) = o + 32 + 32 * n := by omega
    refine ⟨⟨h.inside ho, hin⟩, hsum ▸ hstep,
      ⟨hkeeps.uDirp_eq, hkeeps.uDbuf_eq, hkeeps.uDent_eq, hkeeps.free_eq⟩, fun k => ?_⟩
    refine (hadd k).trans ?_
    by_cases hlast : 32 * (index + 1) ≤ k ∧ k < 32 * (index + 1 + n)
    · rw [if_pos hlast, if_pos (by omega)]
      congr 1
      omega
    · rw [if_neg hlast]
      change (if 32 * index ≤ k ∧ k < 32 * index + 32 then f.bytes (t.place + (k - 32 * index))
        else t.u.additionEntry k) = _
      rw [h.place_eq]
      by_cases hfirst : 32 * index ≤ k ∧ k < 32 * index + 32
      · rw [if_pos hfirst, if_pos (by omega)]
      · rw [if_neg hfirst, if_neg (by omega)]

theorem InStep.readHead (h : InStep f o slack t) (hsize : f.size ≤ maxFileSize) (ho : o < f.size)
    (h32 : 32 ∣ o) : InStep f (o + 32) slack (t.readHead f.bytes) :=
  h.next hsize ho h32 (u := { t.u with uDent := entryAt f.bytes t.place }) rfl rfl

theorem InStep.uDent_eq (h : InStep f o slack t) :
    (t.readHead f.bytes).u.uDent = entryAt f.bytes o := by
  have hdent : (t.readHead f.bytes).u.uDent = entryAt f.bytes t.place := rfl
  rw [hdent, h.place_eq]

/-- **A record in use.** -/
theorem InStep.live (h : InStep f o slack t) (hsize : f.size ≤ maxFileSize) (h32 : 32 ∣ o)
    (hok : SizeOk f.bytes o) (hend : endAt f.bytes o ≤ f.size) :
    (t.readHead f.bytes).Fits f ∧
      InStep f (endAt f.bytes o) slack ((t.readHead f.bytes).rest f.bytes) ∧
      Keeps (t.readHead f.bytes) ((t.readHead f.bytes).rest f.bytes) ∧
      matched ((t.readHead f.bytes).rest f.bytes).u = decide (Begins t.u.uDbuf f.bytes o) := by
  have ho : o < f.size := lt_of_lt_of_le lt_endAt hend
  have hunits : (t.readHead f.bytes).units = unitsAt f.bytes o := by
    unfold Spot.units unitsAt
    rw [h.uDent_eq]
  have hendAt : endAt f.bytes o = o + 32 + 32 * unitsAt f.bytes o := by
    unfold endAt
    omega
  obtain ⟨hin, hstep, hkeeps, hadd⟩ := (h.readHead hsize ho h32).readAdditions hsize (by omega) 0
    (n := unitsAt f.bytes o) (by omega)
  unfold Spot.rest
  rw [hunits]
  refine ⟨⟨hunits.trans_le hok.units_le, hunits.symm ▸ hin⟩, hendAt ▸ hstep, hkeeps, ?_⟩
  have hdbuf : t.u.uDbuf = ((t.readHead f.bytes).readAdditions f.bytes
      (unitsAt f.bytes o) 0).u.uDbuf := hkeeps.uDbuf_eq.symm
  rw [Bool.eq_iff_iff, decide_eq_true_iff, hdbuf]
  refine matched_iff hok (hkeeps.uDent_eq.trans h.uDent_eq) fun k hk => ?_
  rw [hadd k, if_pos (by omega), Nat.mul_zero, Nat.sub_zero]

/-- Noting a free record changes no more than `freeEntryOffset`. -/
theorem noted_frame (h : t.Noted n t') : t'.u = t.u ∧ t'.cur = t.cur := by
  unfold Spot.Noted at h
  split at h
  · rw [h]
    exact ⟨rfl, rfl⟩
  · obtain ⟨L, -, h⟩ := h
    split at h
    · rw [h.1]
      exact ⟨rfl, rfl⟩
    · rw [h]
      exact ⟨rfl, rfl⟩

/-- **A free record** that lies in one block. -/
theorem InStep.skip (h : InStep f o slack t) (hsize : f.size ≤ maxFileSize) (h32 : 32 ∣ o)
    (hok : SizeOk f.bytes o) (hend : endAt f.bytes o ≤ f.size)
    (hone : (endAt f.bytes o - 1) / 512 = o / 512) (hnoted : (t.readHead f.bytes).Noted n t') :
    InStep f (endAt f.bytes o) (slack + unitsAt f.bytes o) t'.skip := by
  have ho : o < f.size := lt_of_lt_of_le lt_endAt hend
  have hsmall : maxFileSize < 2 ^ 30 := by decide
  obtain ⟨hu, hcur⟩ := noted_frame hnoted
  have h₁ := h.readHead hsize ho h32
  have hcount := h₁.mCount_eq
  have hslack := h.slack_le
  have hdef : endAt f.bytes o = o + 32 * (unitsAt f.bytes o + 1) := rfl
  have hunits : t'.u.uDent.mAdditionEsize = unitsAt f.bytes o := by
    rw [hu, h.uDent_eq, hok.mAdditionEsize_eq]
  refine ⟨?_, ?_, by omega, fun hmod => ?_⟩
  · change int32 (t'.u.mOffset + 32 * t'.u.uDent.mAdditionEsize) = _
    rw [hunits, hu, h₁.mOffset_eq, int32_of_bounds (by omega) (by omega)]
    omega
  · change 32 * t'.u.mCount = _
    rw [hu, hcount]
    omega
  · have hblock : t'.cur = t.block := hcur
    change t'.cur = _
    rw [hblock, h.block_eq]
    omega

/-- Where the code looks up the unit behind the part to be used. -/
theorem InStep.behind_eq (h : InStep f o slack t) (hsize : f.size ≤ maxFileSize) (ho : o < f.size)
    (h32 : 32 ∣ o) {L : ℕ} (hL : (L + 7) / 32 ≤ 4) :
    Spot.behind (t.readHead f.bytes).u L = unitBehind L o := by
  have hsmall : maxFileSize < 2 ^ 30 := by decide
  unfold Spot.behind unitBehind
  rw [(h.readHead hsize ho h32).mOffset_eq]
  omega

/-- **Noting a free record** that does not stop the search. -/
theorem InStep.exists_noted (h : InStep f o slack t) (hsize : f.size ≤ maxFileSize) (h32 : 32 ∣ o)
    (ho : o < f.size) (hok : SizeOk f.bytes o) (hfree : IsFree f.bytes o)
    (hawake : t.freeEntryOffset = 0 → ∃ L, stringLength t.u.uDirp = .ok L ∧
      (Large f.bytes L o → (unitBehind L o < 512 ∨ unitBehind L o / 512 ≠ o / 512) ∧
        unitBehind L o < f.size)) :
    ∃ t', (t.readHead f.bytes).Noted f.size t' ∧ (t'.freeEntryOffset = 0 ↔
      t.freeEntryOffset = 0 ∧ ∀ L, stringLength t.u.uDirp = .ok L → ¬ Large f.bytes L o) := by
  have hcur : (t.readHead f.bytes).cur = o / 512 := h.block_eq
  have hunits := hok.mAdditionEsize_eq
  have hfree₁ : (t.readHead f.bytes).freeEntryOffset = t.freeEntryOffset := rfl
  unfold Spot.Noted
  rw [hfree₁, h.uDent_eq, hunits]
  by_cases hkept : t.freeEntryOffset = 0
  · obtain ⟨L, hL, hcalm⟩ := hawake hkept
    have honly : (∀ L', stringLength t.u.uDirp = .ok L' → ¬ Large f.bytes L' o) ↔
        ¬ Large f.bytes L o := by
      rw [hL]
      exact ⟨fun hall => hall L rfl, fun hnot L' hL' => Except.ok.inj hL' ▸ hnot⟩
    simp only [if_neg (not_not.mpr hkept)]
    by_cases huse : (L + 7) / 32 ≤ unitsAt f.bytes o
    · obtain ⟨hother, hlt⟩ := hcalm ⟨hfree, huse⟩
      have hbehind := h.behind_eq hsize ho h32 (huse.trans hok.units_le)
      refine ⟨{ t.readHead f.bytes with freeEntryOffset := (t.readHead f.bytes).u.mOffset },
        ⟨L, hL, ?_⟩, ?_⟩
      · rw [if_pos (by omega), hbehind]
        refine ⟨rfl, ?_⟩
        rw [hcur]
        omega
      · rw [honly]
        have hoff := (h.readHead hsize ho h32).mOffset_eq
        refine iff_of_false ?_ fun hall => hall.2 ⟨hfree, huse⟩
        change (t.readHead f.bytes).u.mOffset ≠ 0
        omega
    · refine ⟨t.readHead f.bytes, ⟨L, hL, by rw [if_neg (by omega)]⟩, ?_⟩
      rw [honly]
      exact iff_of_true hkept ⟨hkept, fun hlarge => huse hlarge.2⟩
  · refine ⟨t.readHead f.bytes, ?_, iff_of_false hkept fun hall => hkept hall.1⟩
    rw [if_pos hkept]

end InStep

/-! ### The records in front -/

section Pass

variable {dbuf b : ℕ → UInt8} {dirp : List UInt8} {r : ℕ} {rs : List ℕ}

theorem Awake.head (h : Awake dirp b (r :: rs)) (hfree : IsFree b r) :
    ∃ L, stringLength dirp = .ok L ∧
      (Large b L r → unitBehind L r < 512 ∨ unitBehind L r / 512 ≠ r / 512) := by
  obtain ⟨L, hL, hcalm⟩ := h ⟨r, by simp, hfree⟩
  exact ⟨L, hL, fun hlarge => hcalm r (List.find?_cons_of_pos (by simpa using hlarge))⟩

theorem Awake.tail (h : Awake dirp b (r :: rs))
    (hsmall : ∀ L, stringLength dirp = .ok L → ¬ Large b L r) : Awake dirp b rs := by
  rintro ⟨q, hq, hfree⟩
  obtain ⟨L, hL, hcalm⟩ := h ⟨q, by simp [hq], hfree⟩
  refine ⟨L, hL, fun q' hq' => hcalm q' ?_⟩
  rw [List.find?_cons_of_neg (by simpa using hsmall L hL)]
  exact hq'

variable {dir : AnyDirectory} {s : Search} {t : Spot} {o e slack : ℕ}

/-- **The records in front of the one that is taken are passed.** -/
theorem Shows.pass (h : Shows dir s t) (hin : InStep dir.f o slack t) (h32 : 32 ∣ o)
    (hrs : Framed dir.f.bytes e o rs) (he : e ≤ dir.f.size)
    (htaken : ∀ r ∈ rs, ¬ Taken t.u.uDbuf dir.f.bytes r)
    (hone : ∀ r ∈ rs, IsFree dir.f.bytes r → (endAt dir.f.bytes r - 1) / 512 = r / 512)
    (hawake : t.freeEntryOffset = 0 → Awake t.u.uDirp dir.f.bytes rs)
    (hbehind : ∀ L, ∀ r ∈ rs, Large dir.f.bytes L r → unitBehind L r < dir.f.size) :
    ∃ s' t' slack', (∀ fuel, scan (fuel + rs.length) s = scan fuel s') ∧ Shows dir s' t' ∧
      InStep dir.f e slack' t' ∧ t'.u.uDirp = t.u.uDirp ∧ t'.u.uDbuf = t.u.uDbuf ∧
      ((∀ r ∈ rs, ¬ IsFree dir.f.bytes r) → slack' = slack) ∧
      (t'.freeEntryOffset = 0 ↔ t.freeEntryOffset = 0 ∧
        ∀ L, stringLength t.u.uDirp = .ok L → ∀ r ∈ rs, ¬ Large dir.f.bytes L r) := by
  have hsize := dir.located.size_le
  induction rs generalizing o s t slack with
  | nil =>
    cases hrs
    exact ⟨s, t, slack, fun _ => rfl, h, hin, rfl, rfl, fun _ => rfl, by simp⟩
  | cons r rs ih =>
    obtain ⟨rfl, hok, hrest⟩ := hrs
    have hend : endAt dir.f.bytes r ≤ dir.f.size := hrest.le.trans he
    have ho : r < dir.f.size := lt_of_lt_of_le lt_endAt hend
    have hcount : s.u.mCount ≠ 0 := by
      rw [h.u_eq]
      exact hin.mCount_ne_zero ho
    have h32' : 32 ∣ endAt dir.f.bytes r := by
      unfold endAt
      omega
    -- one turn
    obtain ⟨s₁, t₁, slack₁, hstep, h₁, hin₁, hdirp₁, hdbuf₁, hslack₁, hkept₁⟩ :
        ∃ s₁ t₁ slack₁, scanStep s = .ok (false, s₁) ∧ Shows dir s₁ t₁ ∧
          InStep dir.f (endAt dir.f.bytes r) slack₁ t₁ ∧ t₁.u.uDirp = t.u.uDirp ∧
          t₁.u.uDbuf = t.u.uDbuf ∧ (¬ IsFree dir.f.bytes r → slack₁ = slack) ∧
          (t₁.freeEntryOffset = 0 ↔ t.freeEntryOffset = 0 ∧
            ∀ L, stringLength t.u.uDirp = .ok L → ¬ Large dir.f.bytes L r) := by
      by_cases hfree : IsFree dir.f.bytes r
      · obtain ⟨t', hnoted, hkept⟩ := hin.exists_noted hsize h32 ho hok hfree fun hzero => by
          obtain ⟨L, hL, hcalm⟩ := (hawake hzero).head hfree
          exact ⟨L, hL, fun hlarge => ⟨hcalm hlarge, hbehind L r (by simp) hlarge⟩⟩
        obtain ⟨-, s₁, -, -, -, hstep, h₁, -⟩ :=
          h.scanStep_free (hin.inside ho) (by rw [hin.uDent_eq]; exact hfree) hnoted
        have hu := (noted_frame hnoted).1
        refine ⟨s₁, t'.skip, _, hstep, h₁, hin.skip hsize h32 hok hend (hone r (by simp) hfree)
          hnoted, ?_, ?_, fun hlive => absurd hfree hlive, hkept⟩
        · change t'.u.uDirp = _
          rw [hu]
          rfl
        · change t'.u.uDbuf = _
          rw [hu]
          rfl
      · obtain ⟨hfits, hin₁, hkeeps, hmatched⟩ := hin.live hsize h32 hok hend
        obtain ⟨s₁, hstep, h₁, -⟩ :=
          h.scanStep_live (hin.inside ho) (by rw [hin.uDent_eq]; exact hfree) hfits
        have hnot : ¬ Begins t.u.uDbuf dir.f.bytes r := fun hbegins =>
          htaken r (by simp) ⟨hfree, hbegins⟩
        rw [hmatched, decide_eq_false hnot] at hstep
        refine ⟨s₁, _, slack, hstep, h₁, hin₁, hkeeps.uDirp_eq, hkeeps.uDbuf_eq, fun _ => rfl, ?_⟩
        rw [hkeeps.free_eq]
        exact ⟨fun hzero => ⟨hzero, fun _ _ hlarge => hfree hlarge.1⟩, fun hzero => hzero.1⟩
    obtain ⟨s', t', slack', hscan, h', hin', hdirp, hdbuf, hslack, hkept⟩ :=
      ih h₁ hin₁ h32' hrest (fun q hq => by rw [hdbuf₁]; exact htaken q (by simp [hq]))
        (fun q hq => hone q (by simp [hq]))
        (fun hzero => by
          rw [hdirp₁]
          exact (hawake (hkept₁.mp hzero).1).tail (hkept₁.mp hzero).2)
        fun L q hq => hbehind L q (by simp [hq])
    refine ⟨s', t', slack', ?_, h', hin', hdirp.trans hdirp₁, hdbuf.trans hdbuf₁, ?_, ?_⟩
    · intro fuel
      rw [List.length_cons, ← Nat.add_assoc, Directory.scan_succ hcount hstep]
      exact hscan fuel
    · intro hlive
      rw [hslack fun q hq => hlive q (by simp [hq]), hslack₁ (hlive r (by simp))]
    · rw [hkept, hkept₁, hdirp₁, and_assoc]
      refine and_congr_right fun _ => ?_
      constructor
      · rintro ⟨hhead, hrest⟩ L hL q hq
        rcases List.mem_cons.mp hq with rfl | hq
        · exact hhead L hL
        · exact hrest L hL q hq
      · intro hall
        exact ⟨fun L hL => hall L hL r (by simp), fun L hL q hq => hall L hL q (by simp [hq])⟩

/-- A turn begins with a head, which is noted if it is a free one. -/
theorem scan_free {fuel : ℕ} {found : Bool} {s s₁ s' : Search} (hcount : s.u.mCount ≠ 0)
    (hhead : readHead s = .ok s₁) (hfree : s₁.u.uDent.mIno = 0)
    (hscan : scan fuel s = .ok (found, s')) : ∃ s₂, noteFree s₁ = .ok s₂ := by
  cases fuel with
  | zero =>
    rw [scan, if_neg hcount] at hscan
    cases hscan
  | succ fuel =>
    rw [scan, if_neg hcount] at hscan
    obtain ⟨_, hstep, -⟩ := Except.bind_eq_ok.mp hscan
    unfold scanStep at hstep
    rw [hhead, Except.ok_bind, if_pos hfree] at hstep
    obtain ⟨s₂, hnote, -⟩ := Except.bind_eq_ok.mp hstep
    exact ⟨s₂, hnote⟩

/-- At the first free record that it may keep in mind the search measures the rest of the path, and
does not look into the block in hand. -/
theorem Shows.free_ok (h : Shows dir s t) (hin : InStep dir.f r slack t) (h32 : 32 ∣ r)
    (hr : r < dir.f.size) (hok : SizeOk dir.f.bytes r) (hfree : IsFree dir.f.bytes r)
    (hkept : t.freeEntryOffset = 0) {fuel : ℕ} {found : Bool} {s' : Search}
    (hscan : scan fuel s = .ok (found, s')) :
    ∃ L, stringLength t.u.uDirp = .ok L ∧
      (Large dir.f.bytes L r → unitBehind L r < dir.f.size →
        unitBehind L r < 512 ∨ unitBehind L r / 512 ≠ r / 512) := by
  have hinside := hin.inside hr
  obtain ⟨s₁, mIno, esize, hhead, -, hbusy, hshows⟩ := h.readHead hinside.nonneg hinside.lt
  have h₁ := hshows hinside.place_lt
  have hcount : s.u.mCount ≠ 0 := by
    rw [h.u_eq]
    exact hin.mCount_ne_zero hr
  have hdent : s₁.u.uDent = entryAt dir.f.bytes r := by rw [h₁.u_eq, hin.uDent_eq]
  obtain ⟨s₂, hnote⟩ := scan_free hcount hhead (by rw [hdent]; exact hfree) hscan
  have hkept₁ : ¬ s₁.freeEntryOffset ≠ 0 := by
    rw [h₁.free_eq]
    exact not_not.mpr hkept
  have hdirp : s₁.u.uDirp = t.u.uDirp := by rw [h₁.u_eq]; rfl
  obtain ⟨L, hL⟩ : ∃ L, stringLength t.u.uDirp = .ok L := by
    unfold FileManager.noteFree at hnote
    rw [if_neg hkept₁] at hnote
    obtain ⟨L, hL, -⟩ := Except.bind_eq_ok.mp hnote
    exact ⟨L, hdirp ▸ hL⟩
  refine ⟨L, hL, fun hlarge hlt => ?_⟩
  have hsize := dir.located.size_le
  have hbehind := hin.behind_eq hsize hr h32 (hlarge.2.trans hok.units_le)
  have huse : (((L + 7) / 32 : ℕ) : ℤ) ≤ (entryAt dir.f.bytes r).mAdditionEsize := by
    rw [hok.mAdditionEsize_eq]
    exact Int.ofNat_le.mpr hlarge.2
  obtain ⟨t', hnoted⟩ := h₁.noted hbusy hnote fun o ho => by
    unfold lookup at ho
    rw [if_neg hkept₁, hdirp, hL] at ho
    dsimp only at ho
    split at ho
    · rw [List.mem_singleton] at ho
      rw [ho, h₁.u_eq, hbehind]
      omega
    · cases ho
  have hkept' : ¬ (t.readHead dir.f.bytes).freeEntryOffset ≠ 0 := not_not.mpr hkept
  unfold Spot.Noted at hnoted
  rw [if_neg hkept'] at hnoted
  obtain ⟨L', hL', hnoted⟩ := hnoted
  obtain rfl : L = L' := Except.ok.inj (hL.symm.trans hL')
  rw [hin.uDent_eq, if_pos huse, hbehind] at hnoted
  have hcur : (t.readHead dir.f.bytes).cur = r / 512 := hin.block_eq
  have hother := hnoted.2
  rw [hcur] at hother
  omega

theorem Large.behind_le {L : ℕ} (h : Large b L r) : unitBehind L r ≤ endAt b r := by
  have hle := h.2
  unfold unitBehind endAt
  omega

variable {fuel : ℕ} {found : Bool} {s' : Search} {l l' : List ℕ}

/-- A search that ends comes to a free record behind others that are too small. -/
theorem Shows.reach (h : Shows dir s t) (hin : InStep dir.f o slack t) (h32 : 32 ∣ o)
    (hrs : Framed dir.f.bytes e o (l ++ r :: l')) (he : e ≤ dir.f.size)
    (htaken : ∀ q ∈ l, ¬ Taken t.u.uDbuf dir.f.bytes q)
    (hone : ∀ q ∈ l, IsFree dir.f.bytes q → (endAt dir.f.bytes q - 1) / 512 = q / 512)
    (hawake : Awake t.u.uDirp dir.f.bytes l)
    (hsmall : ∀ L, stringLength t.u.uDirp = .ok L → ∀ q ∈ l, ¬ Large dir.f.bytes L q)
    (hfree : IsFree dir.f.bytes r) (hkept : t.freeEntryOffset = 0)
    (hscan : scan fuel s = .ok (found, s')) :
    ∃ L, stringLength t.u.uDirp = .ok L ∧
      (Large dir.f.bytes L r → unitBehind L r < dir.f.size →
        unitBehind L r < 512 ∨ unitBehind L r / 512 ≠ r / 512) := by
  obtain ⟨m, hbefore, hr, hok, hafter⟩ := Framed.append.mp hrs
  subst hr
  have hr : r < dir.f.size := lt_of_lt_of_le lt_endAt (hafter.le.trans he)
  obtain ⟨s₁, t₁, slack₁, hpass, h₁, hin₁, hdirp, -, -, hkept₁⟩ :=
    h.pass hin h32 hbefore hr.le htaken hone (fun _ => hawake) fun L q hq hlarge =>
      hlarge.behind_le.trans_lt ((hbefore.bounds hq).2.1.trans_lt hr)
  have hturns := Directory.scan_mono hscan l.length
  rw [hpass] at hturns
  rw [← hdirp]
  exact h₁.free_ok hin₁ (hbefore.dvd_end h32) hr hok hfree (hkept₁.mpr ⟨hkept, hsmall⟩) hturns

/-- **A search that passes a free record measures the rest of the path.** -/
theorem Shows.measured (h : Shows dir s t) (hin : InStep dir.f o slack t) (h32 : 32 ∣ o)
    (hrs : Framed dir.f.bytes e o rs) (he : e ≤ dir.f.size)
    (htaken : ∀ q ∈ rs, ¬ Taken t.u.uDbuf dir.f.bytes q) (hkept : t.freeEntryOffset = 0)
    (hscan : scan fuel s = .ok (found, s')) (hfree : ∃ q ∈ rs, IsFree dir.f.bytes q) :
    ∃ L, stringLength t.u.uDirp = .ok L := by
  obtain ⟨q, hq, hfreeq⟩ := hfree
  obtain ⟨r, hfirst⟩ := Option.isSome_iff_exists.mp
    (List.find?_isSome (p := (IsFree dir.f.bytes ·)).mpr ⟨q, hq, by simpa using hfreeq⟩)
  obtain ⟨hr, l, l', rfl, hl⟩ := List.find?_eq_some_iff_append.mp hfirst
  have hlive : ∀ q ∈ l, ¬ IsFree dir.f.bytes q := fun q hq => by simpa using hl q hq
  obtain ⟨L, hL, -⟩ := h.reach hin h32 hrs he (fun q hq => htaken q (by simp [hq]))
    (fun q hq hfreeq => absurd hfreeq (hlive q hq))
    (fun ⟨q, hq, hfreeq⟩ => absurd hfreeq (hlive q hq))
    (fun _ _ q hq hlarge => hlive q hq hlarge.1) (by simpa using hr) hkept hscan
  exact ⟨L, hL⟩

/-- **A search that ends is not stopped by a free record.** -/
theorem Shows.awake (h : Shows dir s t) (hin : InStep dir.f o slack t) (h32 : 32 ∣ o)
    (hrs : Framed dir.f.bytes e o rs) (he : e < dir.f.size)
    (htaken : ∀ q ∈ rs, ¬ Taken t.u.uDbuf dir.f.bytes q)
    (hone : ∀ q ∈ rs, IsFree dir.f.bytes q → (endAt dir.f.bytes q - 1) / 512 = q / 512)
    (hkept : t.freeEntryOffset = 0) (hscan : scan fuel s = .ok (found, s')) :
    Awake t.u.uDirp dir.f.bytes rs := by
  intro hfree
  obtain ⟨L, hL⟩ := h.measured hin h32 hrs he.le htaken hkept hscan hfree
  refine ⟨L, hL, fun r hfirst => ?_⟩
  obtain ⟨hr, l, l', rfl, hl⟩ := List.find?_eq_some_iff_append.mp hfirst
  have hlarge : Large dir.f.bytes L r := by simpa using hr
  have hsmall : ∀ q ∈ l, ¬ Large dir.f.bytes L q := fun q hq => by simpa using hl q hq
  have honly : ∀ L', stringLength t.u.uDirp = .ok L' → L = L' := fun L' hL' =>
    Except.ok.inj (hL.symm.trans hL')
  obtain ⟨L', hL', hcalm⟩ := h.reach hin h32 hrs he.le (fun q hq => htaken q (by simp [hq]))
    (fun q hq => hone q (by simp [hq]))
    (fun _ => ⟨L, hL, fun q hq => absurd (by simpa using List.find?_some hq)
      (hsmall q (List.mem_of_find?_eq_some hq))⟩)
    (fun L' hL' => honly L' hL' ▸ hsmall) hlarge.1 hkept hscan
  obtain rfl := honly L' hL'
  exact hcalm hlarge (hlarge.behind_le.trans_lt ((hrs.bounds (by simp)).2.1.trans_lt he))

/-- **The record that is taken.** -/
theorem Shows.takes (h : Shows dir s t) (hin : InStep dir.f o slack t) (h32 : 32 ∣ o)
    (hrs : Framed dir.f.bytes e o (rs ++ r :: l)) (he : e ≤ dir.f.size)
    (htaken : ∀ q ∈ rs, ¬ Taken t.u.uDbuf dir.f.bytes q)
    (hone : ∀ q ∈ rs, IsFree dir.f.bytes q → (endAt dir.f.bytes q - 1) / 512 = q / 512)
    (hawake : Awake t.u.uDirp dir.f.bytes rs) (hr : Taken t.u.uDbuf dir.f.bytes r) :
    ∃ fuel s', scan fuel s = .ok (true, s') ∧ s'.u.uDent = entryAt dir.f.bytes r := by
  obtain ⟨m, hbefore, hrm, hok, hafter⟩ := Framed.append.mp hrs
  subst hrm
  have hend := hafter.le.trans he
  have hlt : r < dir.f.size := lt_of_lt_of_le lt_endAt hend
  obtain ⟨s₁, t₁, slack₁, hpass, h₁, hin₁, -, hdbuf, -, -⟩ :=
    h.pass hin h32 hbefore hlt.le htaken hone (fun _ => hawake) fun L q hq hlarge =>
      hlarge.behind_le.trans_lt ((hbefore.bounds hq).2.1.trans_lt hlt)
  obtain ⟨hfits, -, hkeeps, hmatched⟩ :=
    hin₁.live dir.located.size_le (hbefore.dvd_end h32) hok hend
  obtain ⟨s₂, hstep, h₂, -⟩ :=
    h₁.scanStep_live (hin₁.inside hlt) (by rw [hin₁.uDent_eq]; exact hr.1) hfits
  rw [hmatched, hdbuf, decide_eq_true hr.2] at hstep
  have hcount : s₁.u.mCount ≠ 0 := by
    rw [h₁.u_eq]
    exact hin₁.mCount_ne_zero hlt
  refine ⟨1 + rs.length, s₂, ?_, ?_⟩
  · rw [hpass]
    exact scan_turn hcount hstep
  · rw [h₂.u_eq, hkeeps.uDent_eq, hin₁.uDent_eq]

end Pass

end FileManager
end UnixV6pp
