import UnixV6pp.Fs.Books

/-!
# The accounts stay right

Each change of the accounts, under what the code has made sure of by then, leads from
right accounts to right accounts.  A process that gives up the last reference to an inode
owns it alone until it is done, so what is known of that reference is not disturbed by
the others; the argument is always that two holders would make the count two.

* `TornOk.congr` — what such a process knows depends on little.
* `Ok.hold`, `Ok.seize`, `Ok.discharge`, `Ok.clone` and others — **one change each.**
* `Ok.quiet` — the counts when nobody has anything in hand.
-/

namespace UnixV6pp
namespace Books

open Tally

variable {n : ℕ} {b b' : Books n} {p q : Fin n} {i j : Slot} {src : Source}
variable {f f' : FileSlot} {t : TextSlot} {fd fd' : Fd}

theorem TornOk.congr (h : b.TornOk p i src)
    (hfile : ∀ f, src = .file f →
      b'.owner f = b.owner f ∧ b'.fCount f = b.fCount f ∧ b'.closing p = b.closing p)
    (htext : ∀ t, src = .text t →
      b'.xIptr t = b.xIptr t ∧ b'.textOwner t = b.textOwner t ∧ b'.xCount t = b.xCount t)
    (hcwd : b'.cwd p = b.cwd p) (hrefs : ∀ j, b.refs p j ≤ b'.refs p j) :
    b'.TornOk p i src := by
  cases src with
  | hand => trivial
  | file f =>
    obtain ⟨howner, hcount, hclosing⟩ := hfile f rfl
    simp only [TornOk] at h ⊢
    rw [howner, hcount, hclosing]
    exact h
  | text t =>
    obtain ⟨hx, howner, hcount⟩ := htext t rfl
    simp only [TornOk] at h ⊢
    rw [hx, howner, hcount]
    exact h
  | cdir new =>
    simp only [TornOk] at h ⊢
    rw [hcwd]
    exact ⟨h.1, fun j hj => (h.2 j hj).trans (hrefs j)⟩

/-! ### References in hand -/

theorem refs_setRefs_of_ne {k : ℕ} (hqp : q ≠ p) : (b.setRefs p i k).refs q = b.refs q := by
  unfold setRefs
  exact Function.update_of_ne hqp _ _

theorem refs_setRefs_self {k : ℕ} :
    (b.setRefs p i k).refs p = Function.update (b.refs p) i k := by
  unfold setRefs
  exact Function.update_self _ _ _

namespace Ok

/-! ### Who is left out -/

/-- A file that is just being given up is named by nobody else. -/
theorem not_fds_of_torn (h : b.Ok) (hp : b.tearing p = some (i, .file f)) :
    b.fds q fd ≠ some f := by
  intro hq
  obtain ⟨-, -, hcount, hclosing⟩ := h.torn p i _ hp
  have htwo := two_le_names_closing hq hclosing
  rw [← h.names, hcount] at htwo
  omega

theorem not_closing_of_torn (h : b.Ok) (hp : b.tearing p = some (i, .file f)) (hpq : p ≠ q) :
    b.closing q ≠ some f := by
  intro hq
  obtain ⟨-, -, hcount, hclosing⟩ := h.torn p i _ hp
  have htwo := two_le_names_of_closing hpq hclosing hq
  rw [← h.names, hcount] at htwo
  omega

theorem not_fresh_of_torn (h : b.Ok) (hp : b.tearing p = some (i, .file f)) :
    b.fresh q f ≠ true := by
  intro hq
  obtain ⟨-, -, fd, hfd⟩ := h.fresh q f hq
  exact h.not_fds_of_torn hp hfd

/-- A file just allocated is named by the process that did so. -/
theorem eq_of_fresh (h : b.Ok) (hp : b.fresh p f = true) (hq : b.fds q fd = some f) : q = p := by
  obtain ⟨-, hcount, fd', hfd'⟩ := h.fresh p f hp
  by_contra hne
  have htwo := two_le_names hne hq hfd'
  rw [← h.names, hcount] at htwo
  omega

theorem not_closing_of_fresh (h : b.Ok) (hp : b.fresh p f = true) : b.closing q ≠ some f := by
  intro hq
  obtain ⟨-, hcount, fd, hfd⟩ := h.fresh p f hp
  have htwo := two_le_names_closing hfd hq
  rw [← h.names, hcount] at htwo
  omega

theorem fCount_pos (h : b.Ok) (hp : b.fds p fd = some f) : 0 < b.fCount f := by
  rw [h.names]
  exact one_le_names hp

/-- A file that is named has its reference, if it is not just being allocated. -/
theorem owner_of_fds (h : b.Ok) (hp : b.fds p fd = some f) (hfresh : b.fresh p f = false) :
    b.owner f ≠ none := by
  intro howner
  obtain ⟨q, hq | ⟨i, hq⟩⟩ := h.unowned f (h.fCount_pos hp).ne' howner
  · obtain rfl := h.eq_of_fresh hq hp
    rw [hq] at hfresh
    cases hfresh
  · exact h.not_fds_of_torn hq hp

/-- A file that a process is about to leave still has its reference. -/
theorem owner_of_closing (h : b.Ok) (hp : b.closing p = some f) (htearing : b.tearing p = none) :
    0 < b.fCount f ∧ b.owner f ≠ none := by
  have hpos : 0 < b.fCount f := by
    have hsum : 0 ≤ ∑ q, tally (b.fds q) f := Finset.sum_nonneg fun q _ => tally_nonneg _ _
    have hclosing := one_le_tally hp
    rw [h.names]
    unfold Books.names
    omega
  refine ⟨hpos, fun howner => ?_⟩
  obtain ⟨q, hq | ⟨i, hq⟩⟩ := h.unowned f hpos.ne' howner
  · exact h.not_closing_of_fresh hq hp
  · by_cases hqp : q = p
    · subst hqp
      rw [htearing] at hq
      cases hq
    · exact h.not_closing_of_torn hq hqp hp

/-- The inode of which a text segment in use has a reference. -/
theorem textOwner_of_use (h : b.Ok) (hp : b.textUse p = some t) : b.textOwner t = b.xIptr t := by
  by_contra hne
  obtain ⟨q, i, hq⟩ := h.textOwned t hne
  obtain ⟨-, hx, -, hcount⟩ := h.torn q i _ hq
  have husers := h.users t (h.used p t hp)
  have hone := one_le_tally hp
  omega

theorem not_textUse_of_torn (h : b.Ok) (hp : b.tearing p = some (i, .text t)) :
    b.textUse q ≠ some t := by
  intro hq
  obtain ⟨-, -, -, hcount⟩ := h.torn p i _ hp
  have husers := h.users t (h.used q t hq)
  have hone := one_le_tally hq
  omega

/-- What the process `p` does leaves those alone that are giving back a last reference. -/
theorem torn_other (h : b.Ok) (htearing : b'.tearing = b.tearing) (hp : b.tearing p = none)
    (hrefs : ∀ q, q ≠ p → b'.refs q = b.refs q) (hcwd : ∀ q, q ≠ p → b'.cwd q = b.cwd q)
    (hfile : ∀ q i f, q ≠ p → b.tearing q = some (i, .file f) →
      b'.owner f = b.owner f ∧ b'.fCount f = b.fCount f ∧ b'.closing q = b.closing q)
    (htext : ∀ q i t, q ≠ p → b.tearing q = some (i, .text t) →
      b'.xIptr t = b.xIptr t ∧ b'.textOwner t = b.textOwner t ∧ b'.xCount t = b.xCount t) :
    ∀ q i src, b'.tearing q = some (i, src) → 0 < b'.refs q i ∧ b'.TornOk q i src := by
  intro q i src hq
  rw [htearing] at hq
  have hqp : q ≠ p := by
    rintro rfl
    rw [hp] at hq
    cases hq
  obtain ⟨href, hsrc⟩ := h.torn q i src hq
  rw [hrefs q hqp]
  refine ⟨href, hsrc.congr ?_ ?_ (hcwd q hqp) fun j => ?_⟩
  · rintro f rfl
    exact hfile q i f hqp hq
  · rintro t rfl
    exact htext q i t hqp hq
  · rw [hrefs q hqp]

/-! ### References to inodes -/

theorem hold (h : b.Ok) (htearing : b.tearing p = none) : (b.hold p i).Ok where
  names := h.names
  holders j := by
    change Function.update b.count i (b.count i + 1) j = (b.take p i).holders j
    rw [holders_take, ← h.holders]
    by_cases hj : j = i
    · subst hj
      rw [Function.update_self, if_pos rfl]
    · rw [Function.update_of_ne hj, if_neg hj, add_zero]
  users := h.users
  used := h.used
  owned := h.owned
  unowned := h.unowned
  fresh := h.fresh
  textOwned := h.textOwned
  torn := h.torn_other rfl htearing (fun q hqp => refs_setRefs_of_ne hqp) (fun _ _ => rfl)
    (fun _ _ _ _ _ => ⟨rfl, rfl, rfl⟩) fun _ _ _ _ _ => ⟨rfl, rfl, rfl⟩
  tornText := h.tornText

theorem forget (h : b.Ok) (hrefs : 0 < b.refs p i) (htearing : b.tearing p = none) :
    (b.forget p i).Ok where
  names := h.names
  holders j := by
    have hlost : (b.forget p i).holders j =
        (b.give p i).holders j - b.lost j + (Function.update b.lost i (b.lost i + 1) j : ℕ) := by
      simp only [Books.forget, Books.holders, give, setRefs]
      ring
    rw [hlost, holders_give hrefs]
    change b.count j = _
    rw [h.holders]
    by_cases hj : j = i
    · subst hj
      rw [Function.update_self, if_pos rfl]
      push_cast
      ring
    · rw [Function.update_of_ne hj, if_neg hj]
      ring
  users := h.users
  used := h.used
  owned := h.owned
  unowned := h.unowned
  fresh := h.fresh
  textOwned := h.textOwned
  torn := h.torn_other rfl htearing (fun q hqp => refs_setRefs_of_ne hqp) (fun _ _ => rfl)
    (fun _ _ _ _ _ => ⟨rfl, rfl, rfl⟩) fun _ _ _ _ _ => ⟨rfl, rfl, rfl⟩
  tornText := h.tornText

end Ok

/-- What the code has made sure of when it begins to give back a reference. -/
def Ready (b : Books n) (p : Fin n) (i : Slot) : Source → Prop
  | .hand => 0 < b.refs p i
  | .file f => b.owner f = some i ∧ b.fCount f = 1 ∧ b.closing p = some f
  | .text t => b.textOwner t = some i ∧ b.xCount t = 0
  | .cdir new => b.cwd p = some i ∧ ∀ j, new = some j → 0 < b.refs p j

@[simp] theorem takeFrom_names (f : FileSlot) : (b.takeFrom p i src).names f = b.names f := by
  cases src <;> rfl

@[simp] theorem takeFrom_count : (b.takeFrom p i src).count = b.count := by cases src <;> rfl

@[simp] theorem takeFrom_fCount : (b.takeFrom p i src).fCount = b.fCount := by cases src <;> rfl

@[simp] theorem takeFrom_fds : (b.takeFrom p i src).fds = b.fds := by cases src <;> rfl

@[simp] theorem takeFrom_closing : (b.takeFrom p i src).closing = b.closing := by
  cases src <;> rfl

@[simp] theorem takeFrom_textUse : (b.takeFrom p i src).textUse = b.textUse := by
  cases src <;> rfl

@[simp] theorem takeFrom_fresh : (b.takeFrom p i src).fresh = b.fresh := by cases src <;> rfl

@[simp] theorem takeFrom_tearing : (b.takeFrom p i src).tearing = b.tearing := by
  cases src <;> rfl

@[simp] theorem takeFrom_xIptr : (b.takeFrom p i src).xIptr = b.xIptr := by
  cases src with
  | text t => exact Function.update_eq_self t b.xIptr
  | _ => rfl

@[simp] theorem takeFrom_xCount : (b.takeFrom p i src).xCount = b.xCount := by
  cases src with
  | text t => exact Function.update_eq_self t b.xCount
  | _ => rfl

theorem takeFrom_refs_of_ne (hqp : q ≠ p) : (b.takeFrom p i src).refs q = b.refs q := by
  cases src with
  | hand => rfl
  | _ => exact refs_setRefs_of_ne hqp

theorem takeFrom_cwd_of_ne (hqp : q ≠ p) : (b.takeFrom p i src).cwd q = b.cwd q := by
  cases src with
  | cdir new => exact Function.update_of_ne hqp _ _
  | _ => rfl

/-- Only the file whose reference is taken loses it. -/
theorem takeFrom_owner (f : FileSlot) :
    (b.takeFrom p i src).owner f = if src = .file f then none else b.owner f := by
  cases src with
  | file g =>
    change Function.update b.owner g none f = _
    by_cases hf : f = g
    · subst hf
      rw [Function.update_self, if_pos rfl]
    · rw [Function.update_of_ne hf, if_neg]
      rintro ⟨⟩
      exact hf rfl
  | _ => rfl

theorem takeFrom_textOwner (t : TextSlot) :
    (b.takeFrom p i src).textOwner t = if src = .text t then none else b.textOwner t := by
  cases src with
  | text u =>
    change Function.update b.textOwner u none t = _
    by_cases ht : t = u
    · subst ht
      rw [Function.update_self, if_pos rfl]
    · rw [Function.update_of_ne ht, if_neg]
      rintro ⟨⟩
      exact ht rfl
  | _ => rfl

theorem holders_takeFrom (h : b.Ready p i src) : (b.takeFrom p i src).holders j = b.holders j := by
  cases src with
  | hand => rfl
  | file f =>
    obtain ⟨howner, -, -⟩ := h
    simp only [takeFrom]
    rw [holders_setOwner, holders_take, show (b.take p i).owner f = some i from howner]
    by_cases hj : j = i
    · subst hj
      simp
    · simp [hj, Ne.symm hj]
  | text t =>
    obtain ⟨howner, -⟩ := h
    simp only [takeFrom]
    rw [holders_setText, holders_take, show (b.take p i).textOwner t = some i from howner]
    by_cases hj : j = i
    · subst hj
      simp
    · simp [hj, Ne.symm hj]
  | cdir new =>
    obtain ⟨hcwd, -⟩ := h
    simp only [takeFrom]
    rw [holders_setCwd, holders_take, show (b.take p i).cwd p = some i from hcwd]
    by_cases hj : j = i
    · subst hj
      simp
    · simp [hj, Ne.symm hj]

namespace Ok

theorem xIptr_of_owner (h : b.Ok) (howner : b.textOwner t = some i) : b.xIptr t = some i := by
  rw [← howner]
  by_contra hne
  obtain ⟨q, j, hq⟩ := h.textOwned t (Ne.symm hne)
  obtain ⟨-, -, hnone, -⟩ := h.torn q j _ hq
  rw [hnone] at howner
  cases howner

theorem ne_of_tearing {v : Slot × Source} (hp : b.tearing p = none) (hq : b.tearing q = some v) :
    q ≠ p := by
  rintro rfl
  rw [hp] at hq
  cases hq

theorem not_torn_of_ready (h : b.Ok) (hready : b.Ready p i (.text t)) :
    b.tearing q ≠ some (j, .text t) := by
  intro hq
  obtain ⟨-, -, hnone, -⟩ := h.torn q j _ hq
  rw [hready.1] at hnone
  cases hnone

theorem torn_self (h : b.Ok) (hready : b.Ready p i src) :
    0 < (b.seize p i src).refs p i ∧ (b.seize p i src).TornOk p i src := by
  have htake : (b.take p i).refs p = Function.update (b.refs p) i (b.refs p i + 1) :=
    refs_setRefs_self
  have hpos : 0 < (b.take p i).refs p i := by
    rw [htake, Function.update_self]
    exact Nat.succ_pos _
  cases src with
  | hand => exact ⟨hready, trivial⟩
  | file f =>
    obtain ⟨-, hcount, hclosing⟩ := hready
    exact ⟨hpos, Function.update_self _ _ _, hcount, hclosing⟩
  | text t =>
    obtain ⟨howner, hcount⟩ := hready
    refine ⟨hpos, ?_, Function.update_self _ _ _, ?_⟩
    · exact (Function.update_self _ _ _).trans (h.xIptr_of_owner howner)
    · exact (Function.update_self _ _ _).trans hcount
  | cdir new =>
    obtain ⟨-, hnew⟩ := hready
    refine ⟨hpos, Function.update_self _ _ _, fun j hj => ?_⟩
    have hj' := hnew j hj
    change _ ≤ (b.take p i).refs p j
    rw [htake]
    split
    · next hji =>
      subst hji
      rw [Function.update_self]
      omega
    · next hji =>
      rw [Function.update_of_ne hji]
      exact hj'

/-- The last reference to an inode goes to the process that gives it back. -/
theorem seize (h : b.Ok) (htearing : b.tearing p = none) (hready : b.Ready p i src) :
    (b.seize p i src).Ok where
  names f := by
    change (b.takeFrom p i src).fCount f = (b.takeFrom p i src).names f
    rw [takeFrom_fCount, takeFrom_names, h.names]
  holders j := by
    change (b.takeFrom p i src).count j = (b.takeFrom p i src).holders j
    rw [takeFrom_count, holders_takeFrom hready, h.holders]
  users t := by
    change (b.takeFrom p i src).xIptr t ≠ none → (b.takeFrom p i src).xCount t =
      tally (b.takeFrom p i src).textUse t
    rw [takeFrom_xIptr, takeFrom_xCount, takeFrom_textUse]
    exact h.users t
  used q t := by
    change (b.takeFrom p i src).textUse q = some t → (b.takeFrom p i src).xIptr t ≠ none
    rw [takeFrom_xIptr, takeFrom_textUse]
    exact h.used q t
  owned f := by
    change (b.takeFrom p i src).owner f ≠ none → (b.takeFrom p i src).fCount f ≠ 0
    rw [takeFrom_owner, takeFrom_fCount]
    intro howner
    split at howner
    · exact absurd rfl howner
    · exact h.owned f howner
  unowned f := by
    change (b.takeFrom p i src).fCount f ≠ 0 → (b.takeFrom p i src).owner f = none →
      ∃ q, (b.takeFrom p i src).fresh q f = true ∨
        ∃ j, Function.update (b.takeFrom p i src).tearing p (some (i, src)) q = some (j, .file f)
    rw [takeFrom_fCount, takeFrom_owner, takeFrom_fresh, takeFrom_tearing]
    intro hcount howner
    by_cases hsrc : src = .file f
    · subst hsrc
      exact ⟨p, .inr ⟨i, Function.update_self _ _ _⟩⟩
    · rw [if_neg hsrc] at howner
      obtain ⟨q, hq | ⟨j, hq⟩⟩ := h.unowned f hcount howner
      · exact ⟨q, .inl hq⟩
      · refine ⟨q, .inr ⟨j, ?_⟩⟩
        rw [Function.update_of_ne (ne_of_tearing htearing hq), hq]
  fresh q f := by
    change (b.takeFrom p i src).fresh q f = true → (b.takeFrom p i src).owner f = none ∧
      (b.takeFrom p i src).fCount f = 1 ∧ ∃ fd, (b.takeFrom p i src).fds q fd = some f
    rw [takeFrom_fresh, takeFrom_owner, takeFrom_fCount, takeFrom_fds]
    intro hq
    obtain ⟨howner, hrest⟩ := h.fresh q f hq
    rw [howner, ite_self]
    exact ⟨rfl, hrest⟩
  textOwned t := by
    change (b.takeFrom p i src).textOwner t ≠ (b.takeFrom p i src).xIptr t → ∃ q j,
      Function.update (b.takeFrom p i src).tearing p (some (i, src)) q = some (j, .text t)
    rw [takeFrom_textOwner, takeFrom_xIptr, takeFrom_tearing]
    intro howner
    by_cases hsrc : src = .text t
    · subst hsrc
      exact ⟨p, i, Function.update_self _ _ _⟩
    · rw [if_neg hsrc] at howner
      obtain ⟨q, j, hq⟩ := h.textOwned t howner
      refine ⟨q, j, ?_⟩
      rw [Function.update_of_ne (ne_of_tearing htearing hq), hq]
  torn q j src' hq := by
    change Function.update (b.takeFrom p i src).tearing p (some (i, src)) q = some (j, src') at hq
    rw [takeFrom_tearing] at hq
    by_cases hqp : q = p
    · subst hqp
      rw [Function.update_self] at hq
      cases hq
      exact h.torn_self hready
    · rw [Function.update_of_ne hqp] at hq
      obtain ⟨href, hsrc⟩ := h.torn q j src' hq
      have hrefs : (b.seize p i src).refs q = b.refs q := takeFrom_refs_of_ne hqp
      rw [hrefs]
      refine ⟨href, hsrc.congr ?_ ?_ (takeFrom_cwd_of_ne hqp) fun k => (congrFun hrefs k).ge⟩
      · rintro f rfl
        refine ⟨(takeFrom_owner f).trans ?_, congrFun takeFrom_fCount f,
          congrFun takeFrom_closing q⟩
        rw [hsrc.1, ite_self]
      · rintro t rfl
        refine ⟨congrFun takeFrom_xIptr t, (takeFrom_textOwner t).trans ?_,
          congrFun takeFrom_xCount t⟩
        rw [hsrc.2.1, ite_self]
  tornText q r j k t hq hr := by
    change Function.update (b.takeFrom p i src).tearing p (some (i, src)) q = _ at hq
    change Function.update (b.takeFrom p i src).tearing p (some (i, src)) r = _ at hr
    rw [takeFrom_tearing] at hq hr
    by_cases hqp : q = p
    · subst hqp
      by_contra hqr
      rw [Function.update_self] at hq
      rw [Function.update_of_ne (Ne.symm hqr)] at hr
      cases hq
      exact h.not_torn_of_ready hready hr
    · rw [Function.update_of_ne hqp] at hq
      by_cases hrp : r = p
      · subst hrp
        rw [Function.update_self] at hr
        cases hr
        exact absurd hq (h.not_torn_of_ready hready)
      · rw [Function.update_of_ne hrp] at hr
        exact h.tornText q r j k t hq hr

end Ok

/-! The end of a reference. -/

@[simp] theorem settle_count : (b.settle p src).count = b.count := by
  cases src with
  | cdir new => cases new <;> rfl
  | _ => rfl

@[simp] theorem settle_owner : (b.settle p src).owner = b.owner := by
  cases src with
  | cdir new => cases new <;> rfl
  | _ => rfl

@[simp] theorem settle_fds : (b.settle p src).fds = b.fds := by
  cases src with
  | cdir new => cases new <;> rfl
  | _ => rfl

@[simp] theorem settle_textUse : (b.settle p src).textUse = b.textUse := by
  cases src with
  | cdir new => cases new <;> rfl
  | _ => rfl

@[simp] theorem settle_fresh : (b.settle p src).fresh = b.fresh := by
  cases src with
  | cdir new => cases new <;> rfl
  | _ => rfl

@[simp] theorem settle_tearing : (b.settle p src).tearing = b.tearing := by
  cases src with
  | cdir new => cases new <;> rfl
  | _ => rfl

@[simp] theorem settle_textOwner : (b.settle p src).textOwner = b.textOwner := by
  cases src with
  | cdir new => cases new <;> rfl
  | text t => exact Function.update_eq_self t b.textOwner
  | _ => rfl

@[simp] theorem settle_xCount : (b.settle p src).xCount = b.xCount := by
  cases src with
  | cdir new => cases new <;> rfl
  | text t => exact Function.update_eq_self t b.xCount
  | _ => rfl

theorem settle_refs_of_ne (hqp : q ≠ p) : (b.settle p src).refs q = b.refs q := by
  cases src with
  | cdir new =>
    cases new with
    | none => rfl
    | some j => exact refs_setRefs_of_ne hqp
  | _ => rfl

theorem settle_cwd_of_ne (hqp : q ≠ p) : (b.settle p src).cwd q = b.cwd q := by
  cases src with
  | cdir new =>
    cases new with
    | none => rfl
    | some j => exact Function.update_of_ne hqp _ _
  | _ => rfl

theorem settle_closing_of_ne (hqp : q ≠ p) : (b.settle p src).closing q = b.closing q := by
  cases src with
  | cdir new => cases new <;> rfl
  | file f => exact Function.update_of_ne hqp _ _
  | _ => rfl

theorem settle_fCount (f : FileSlot) :
    (b.settle p src).fCount f = if src = .file f then b.fCount f - 1 else b.fCount f := by
  cases src with
  | cdir new => cases new <;> rfl
  | file g =>
    change Function.update b.fCount g (b.fCount g - 1) f = _
    by_cases hf : f = g
    · subst hf
      rw [Function.update_self, if_pos rfl]
    · rw [Function.update_of_ne hf, if_neg]
      rintro ⟨⟩
      exact hf rfl
  | _ => rfl

theorem settle_xIptr (t : TextSlot) :
    (b.settle p src).xIptr t = if src = .text t then none else b.xIptr t := by
  cases src with
  | cdir new => cases new <;> rfl
  | text u =>
    change Function.update b.xIptr u none t = _
    by_cases ht : t = u
    · subst ht
      rw [Function.update_self, if_pos rfl]
    · rw [Function.update_of_ne ht, if_neg]
      rintro ⟨⟩
      exact ht rfl
  | _ => rfl

namespace Ok

theorem discharge_names (h : b.Ok) (hp : b.tearing p = some (i, src)) (f : FileSlot) :
    (b.discharge p i src).fCount f = (b.discharge p i src).names f := by
  obtain ⟨-, hsrc⟩ := h.torn p i src hp
  cases src with
  | file g =>
    obtain ⟨-, -, hclosing⟩ := hsrc
    unfold discharge settle
    rw [names_setClosing]
    change Function.update b.fCount g (b.fCount g - 1) f =
      b.names f - (if b.closing p = some f then 1 else 0) + (if none = some f then 1 else 0)
    rw [hclosing]
    by_cases hf : f = g
    · subst hf
      rw [Function.update_self, if_pos rfl, h.names]
      simp
    · rw [Function.update_of_ne hf, h.names, if_neg]
      · simp
      · rintro ⟨⟩
        exact hf rfl
  | cdir new => cases new <;> exact h.names f
  | _ => exact h.names f

/-- The reference itself is gone, its owner not yet settled. -/
theorem holders_drop (h : b.Ok) (hp : b.tearing p = some (i, src)) (j : Slot) :
    Function.update b.count i (b.count i - 1) j =
      (((b.setCount i (b.count i - 1)).give p i).setTearing p none).holders j := by
  change _ = ((b.setCount i (b.count i - 1)).give p i).holders j
  rw [holders_give (b := b.setCount i (b.count i - 1)) (h.torn p i src hp).1]
  change _ = b.holders j - _
  rw [← h.holders]
  by_cases hj : j = i
  · subst hj
    rw [Function.update_self, if_pos rfl]
  · rw [Function.update_of_ne hj, if_neg hj, sub_zero]

theorem discharge_holders (h : b.Ok) (hp : b.tearing p = some (i, src)) (j : Slot) :
    (b.discharge p i src).count j = (b.discharge p i src).holders j := by
  have hdrop := h.holders_drop hp j
  obtain ⟨-, hsrc⟩ := h.torn p i src hp
  unfold discharge
  rw [settle_count]
  change Function.update b.count i (b.count i - 1) j = _
  cases src with
  | hand => exact hdrop
  | file f => exact hdrop
  | text t =>
    rw [hdrop]
    unfold settle
    rw [holders_setText]
    ring
  | cdir new =>
    cases new with
    | none => exact hdrop
    | some k =>
      obtain ⟨hcwd, hnew⟩ := hsrc
      have hk := hnew k rfl
      have hpos : 0 < (((b.setCount i (b.count i - 1)).give p i).setTearing p none).refs p k := by
        change 0 < ((b.setCount i (b.count i - 1)).setRefs p i (b.refs p i - 1)).refs p k
        rw [refs_setRefs_self]
        by_cases hki : k = i
        · subst hki
          rw [Function.update_self]
          rw [if_pos rfl] at hk
          omega
        · rw [Function.update_of_ne hki]
          rw [if_neg hki] at hk
          exact hk
      rw [hdrop]
      unfold settle
      rw [holders_setCwd, holders_give hpos,
        show ((((b.setCount i (b.count i - 1)).give p i).setTearing p none).give p k).cwd p = none
          from hcwd]
      by_cases hj : j = k
      · subst hj
        simp
      · simp [hj, Ne.symm hj]

/-- A reference is given back. -/
theorem discharge (h : b.Ok) (hp : b.tearing p = some (i, src)) : (b.discharge p i src).Ok where
  names := h.discharge_names hp
  holders := h.discharge_holders hp
  users t := by
    unfold Books.discharge
    rw [settle_xIptr, settle_xCount, settle_textUse]
    intro hx
    split at hx
    · exact absurd rfl hx
    · exact h.users t hx
  used q t := by
    unfold Books.discharge
    rw [settle_xIptr, settle_textUse]
    change b.textUse q = some t → (if _ then none else b.xIptr t) ≠ none
    intro hq
    rw [if_neg]
    · exact h.used q t hq
    rintro rfl
    have hpos := one_le_tally hq
    rw [← h.users t (h.used q t hq), (h.torn p i _ hp).2.2.2] at hpos
    omega
  owned f := by
    unfold Books.discharge
    rw [settle_owner, settle_fCount]
    change b.owner f ≠ none → (if _ then b.fCount f - 1 else b.fCount f) ≠ 0
    intro howner
    rw [if_neg]
    · exact h.owned f howner
    rintro rfl
    exact howner (h.torn p i _ hp).2.1
  unowned f := by
    unfold Books.discharge
    rw [settle_owner, settle_fCount, settle_fresh, settle_tearing]
    change (if _ then b.fCount f - 1 else b.fCount f) ≠ 0 → b.owner f = none →
      ∃ q, b.fresh q f = true ∨ ∃ j, Function.update b.tearing p none q = some (j, .file f)
    intro hcount howner
    by_cases hsrc : src = .file f
    · subst hsrc
      rw [if_pos rfl, (h.torn p i _ hp).2.2.1] at hcount
      exact absurd rfl hcount
    · rw [if_neg hsrc] at hcount
      obtain ⟨q, hq | ⟨j, hq⟩⟩ := h.unowned f hcount howner
      · exact ⟨q, .inl hq⟩
      · refine ⟨q, .inr ⟨j, ?_⟩⟩
        rw [Function.update_of_ne, hq]
        rintro rfl
        rw [hp] at hq
        cases hq
        exact hsrc rfl
  fresh q f := by
    unfold Books.discharge
    rw [settle_owner, settle_fCount, settle_fresh, settle_fds]
    change b.fresh q f = true → b.owner f = none ∧
      (if _ then b.fCount f - 1 else b.fCount f) = 1 ∧ ∃ fd, b.fds q fd = some f
    intro hq
    rw [if_neg]
    · exact h.fresh q f hq
    rintro rfl
    exact h.not_fresh_of_torn hp hq
  textOwned t := by
    unfold Books.discharge
    rw [settle_textOwner, settle_xIptr, settle_tearing]
    change b.textOwner t ≠ (if _ then none else b.xIptr t) →
      ∃ q j, Function.update b.tearing p none q = some (j, .text t)
    intro howner
    by_cases hsrc : src = .text t
    · subst hsrc
      rw [if_pos rfl, (h.torn p i _ hp).2.2.1] at howner
      exact absurd rfl howner
    · rw [if_neg hsrc] at howner
      obtain ⟨q, j, hq⟩ := h.textOwned t howner
      refine ⟨q, j, ?_⟩
      rw [Function.update_of_ne, hq]
      rintro rfl
      rw [hp] at hq
      cases hq
      exact hsrc rfl
  torn q j src' hq := by
    have htearing : (b.discharge p i src).tearing = Function.update b.tearing p none :=
      settle_tearing
    rw [htearing] at hq
    have hqp : q ≠ p := by
      rintro rfl
      rw [Function.update_self] at hq
      cases hq
    rw [Function.update_of_ne hqp] at hq
    obtain ⟨href, hsrc⟩ := h.torn q j src' hq
    have hrefs : (b.discharge p i src).refs q = b.refs q :=
      (settle_refs_of_ne hqp).trans (refs_setRefs_of_ne hqp)
    rw [hrefs]
    refine ⟨href, hsrc.congr ?_ ?_ (settle_cwd_of_ne hqp) fun k => (congrFun hrefs k).ge⟩
    · rintro f rfl
      refine ⟨congrFun settle_owner f, (settle_fCount f).trans (if_neg ?_),
        settle_closing_of_ne hqp⟩
      rintro rfl
      exact h.not_closing_of_torn hp (Ne.symm hqp) hsrc.2.2
    · rintro t rfl
      refine ⟨(settle_xIptr t).trans (if_neg ?_), congrFun settle_textOwner t,
        congrFun settle_xCount t⟩
      rintro rfl
      exact hqp (h.tornText q p j i t hq hp)
  tornText q r j k t hq hr := by
    have htearing : (b.discharge p i src).tearing = Function.update b.tearing p none :=
      settle_tearing
    rw [htearing] at hq hr
    have hold : ∀ r l, Function.update b.tearing p none r = some (l, .text t) →
        b.tearing r = some (l, .text t) := by
      intro r l hr
      by_cases hrp : r = p
      · subst hrp
        rw [Function.update_self] at hr
        cases hr
      · rwa [Function.update_of_ne hrp] at hr
    exact h.tornText q r j k t (hold q j hq) (hold r k hr)

end Ok
end Books
end UnixV6pp
