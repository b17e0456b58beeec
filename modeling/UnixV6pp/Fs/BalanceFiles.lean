import UnixV6pp.Fs.Balance

/-!
# The accounts of open files and text segments

The changes that concern descriptors, open files and text segments keep the accounts
right as well.  A file is allocated without a reference to an inode and gets one before
anybody else can name it.

* `Ok.fAlloc`, `Ok.openFile`, `Ok.dup`, `Ok.clone` and others — one change each.
* `Ok.quiet` — **when nobody has anything in hand, the counts are those of the tables.**
-/

namespace UnixV6pp
namespace Books

open Tally

variable {n : ℕ} {b : Books n} {p q child : Fin n} {i j : Slot}
variable {f : FileSlot} {t : TextSlot} {fd fd' : Fd}

namespace Ok

/-! ### Open files -/

theorem fAlloc (h : b.Ok) (htearing : b.tearing p = none) (hfd : b.fds p fd = none)
    (hcount : b.fCount f = 0) : (b.fAlloc p fd f).Ok where
  names g := by
    change Function.update b.fCount f (b.fCount f + 1) g = (b.setFd p fd (some f)).names g
    rw [names_setFd, hfd, ← h.names]
    by_cases hg : g = f
    · subst hg
      rw [Function.update_self]
      simp
    · rw [Function.update_of_ne hg]
      simp [Ne.symm hg]
  holders := h.holders
  users := h.users
  used := h.used
  owned g howner := by
    change Function.update b.fCount f (b.fCount f + 1) g ≠ 0
    rw [Function.update_of_ne]
    · exact h.owned g howner
    · rintro rfl
      exact h.owned g howner hcount
  unowned g := by
    change Function.update b.fCount f (b.fCount f + 1) g ≠ 0 → b.owner g = none → ∃ q,
      Function.update b.fresh p (Function.update (b.fresh p) f true) q g = true ∨ _
    intro hg howner
    by_cases hgf : g = f
    · subst hgf
      refine ⟨p, .inl ?_⟩
      rw [update_row, if_pos ⟨rfl, rfl⟩]
    · rw [Function.update_of_ne hgf] at hg
      obtain ⟨q, hq | hq⟩ := h.unowned g hg howner
      · refine ⟨q, .inl ?_⟩
        rw [update_row, if_neg fun he => hgf he.2, hq]
      · exact ⟨q, .inr hq⟩
  fresh q g := by
    change Function.update b.fresh p (Function.update (b.fresh p) f true) q g = true →
      b.owner g = none ∧ Function.update b.fCount f (b.fCount f + 1) g = 1 ∧
        ∃ fd', Function.update b.fds p (Function.update (b.fds p) fd (some f)) q fd' = some g
    rw [update_row]
    intro hq
    split at hq
    · next he =>
      obtain ⟨rfl, rfl⟩ := he
      rw [Function.update_self, hcount]
      refine ⟨?_, rfl, fd, by rw [update_row, if_pos ⟨rfl, rfl⟩]⟩
      by_contra howner
      exact h.owned g howner hcount
    · obtain ⟨howner, hone, fd', hfd'⟩ := h.fresh q g hq
      rw [Function.update_of_ne]
      · refine ⟨howner, hone, fd', ?_⟩
        rw [update_row, if_neg, hfd']
        rintro ⟨rfl, rfl⟩
        rw [hfd] at hfd'
        cases hfd'
      · rintro rfl
        omega
  textOwned := h.textOwned
  torn := h.torn_other rfl htearing (fun _ _ => rfl) (fun _ _ => rfl)
    (fun q j g _ hq => by
      refine ⟨rfl, Function.update_of_ne ?_ _ _, rfl⟩
      rintro rfl
      have hone := (h.torn q j _ hq).2.2.1
      omega)
    fun _ _ _ _ _ => ⟨rfl, rfl, rfl⟩
  tornText := h.tornText

/-- The new file gets the reference that was in hand. -/
theorem openFile (h : b.Ok) (htearing : b.tearing p = none) (hrefs : 0 < b.refs p i)
    (hfresh : b.fresh p f = true) : (b.openFile p i f).Ok where
  names := h.names
  holders j := by
    obtain ⟨howner, -, -⟩ := h.fresh p f hfresh
    unfold Books.openFile
    rw [holders_give (b := (b.setOwner f (some i)).setFresh p f false) hrefs]
    change b.count j = (b.setOwner f (some i)).holders j - _
    rw [holders_setOwner, howner, h.holders]
    by_cases hj : j = i
    · subst hj
      simp
    · simp [hj, Ne.symm hj]
  users := h.users
  used := h.used
  owned g := by
    change Function.update b.owner f (some i) g ≠ none → b.fCount g ≠ 0
    intro howner
    by_cases hgf : g = f
    · subst hgf
      rw [(h.fresh p g hfresh).2.1]
      exact one_ne_zero
    · rw [Function.update_of_ne hgf] at howner
      exact h.owned g howner
  unowned g := by
    change b.fCount g ≠ 0 → Function.update b.owner f (some i) g = none → ∃ q,
      Function.update b.fresh p (Function.update (b.fresh p) f false) q g = true ∨ _
    intro hg howner
    have hgf : g ≠ f := by
      rintro rfl
      rw [Function.update_self] at howner
      cases howner
    rw [Function.update_of_ne hgf] at howner
    obtain ⟨q, hq | hq⟩ := h.unowned g hg howner
    · refine ⟨q, .inl ?_⟩
      rw [update_row, if_neg fun he => hgf he.2, hq]
    · exact ⟨q, .inr hq⟩
  fresh q g := by
    change Function.update b.fresh p (Function.update (b.fresh p) f false) q g = true →
      Function.update b.owner f (some i) g = none ∧ _
    rw [update_row]
    intro hq
    split at hq
    · cases hq
    · next he =>
      have hgf : g ≠ f := by
        rintro rfl
        obtain ⟨-, -, fd, hfd⟩ := h.fresh q g hq
        exact he ⟨h.eq_of_fresh hfresh hfd, rfl⟩
      rw [Function.update_of_ne hgf]
      exact h.fresh q g hq
  textOwned := h.textOwned
  torn := h.torn_other rfl htearing (fun q hqp => refs_setRefs_of_ne hqp) (fun _ _ => rfl)
    (fun q j g _ hq => by
      refine ⟨Function.update_of_ne ?_ _ _, rfl, rfl⟩
      rintro rfl
      exact h.not_fresh_of_torn hq hfresh)
    fun _ _ _ _ _ => ⟨rfl, rfl, rfl⟩
  tornText := h.tornText

/-- The new file is given up again, its reference taken back. -/
theorem undoOpen (h : b.Ok) (htearing : b.tearing p = none) (hfd : b.fds p fd = some f)
    (howner : b.owner f = some i) (hcount : b.fCount f = 1) : (b.undoOpen p i fd f).Ok where
  names g := by
    change Function.update b.fCount f (b.fCount f - 1) g = (b.setFd p fd none).names g
    rw [names_setFd, hfd, ← h.names]
    by_cases hg : g = f
    · subst hg
      rw [Function.update_self]
      simp
    · rw [Function.update_of_ne hg]
      simp [Ne.symm hg]
  holders j := by
    unfold Books.undoOpen
    rw [holders_take, holders_setOwner]
    change b.count j = b.holders j - (if b.owner f = some j then 1 else 0) + _ + _
    rw [howner, h.holders]
    by_cases hj : j = i
    · subst hj
      simp
    · simp [hj, Ne.symm hj]
  users := h.users
  used := h.used
  owned g := by
    change Function.update b.owner f none g ≠ none →
      Function.update b.fCount f (b.fCount f - 1) g ≠ 0
    intro hg
    have hgf : g ≠ f := by
      rintro rfl
      exact hg (Function.update_self _ _ _)
    rw [Function.update_of_ne hgf] at hg ⊢
    exact h.owned g hg
  unowned g := by
    change Function.update b.fCount f (b.fCount f - 1) g ≠ 0 →
      Function.update b.owner f none g = none → _
    intro hg hnone
    have hgf : g ≠ f := by
      rintro rfl
      rw [Function.update_self, hcount] at hg
      exact hg rfl
    rw [Function.update_of_ne hgf] at hg hnone
    exact h.unowned g hg hnone
  fresh q g hq := by
    obtain ⟨hnone, hone, fd', hfd'⟩ := h.fresh q g hq
    have hgf : g ≠ f := by
      rintro rfl
      rw [hnone] at howner
      cases howner
    refine ⟨(Function.update_of_ne hgf _ _).trans hnone,
      (Function.update_of_ne hgf _ _).trans hone, fd', ?_⟩
    refine (update_row _ _ _ _ _ _).trans ?_
    rw [if_neg, hfd']
    rintro ⟨rfl, rfl⟩
    rw [hfd] at hfd'
    cases hfd'
    exact hgf rfl
  textOwned := h.textOwned
  torn := h.torn_other rfl htearing (fun q hqp => refs_setRefs_of_ne hqp) (fun _ _ => rfl)
    (fun q j g _ hq => by
      have hgf : g ≠ f := by
        rintro rfl
        exact h.not_fds_of_torn hq hfd
      exact ⟨Function.update_of_ne hgf _ _, Function.update_of_ne hgf _ _, rfl⟩)
    fun _ _ _ _ _ => ⟨rfl, rfl, rfl⟩
  tornText := h.tornText

/-- A file that never got a reference is given up. -/
theorem undoPipe (h : b.Ok) (htearing : b.tearing p = none) (hfd : b.fds p fd = some f)
    (hfresh : b.fresh p f = true) : (b.undoPipe p fd f).Ok where
  names g := by
    change Function.update b.fCount f 0 g = (b.setFd p fd none).names g
    rw [names_setFd, hfd, ← h.names]
    by_cases hg : g = f
    · subst hg
      rw [Function.update_self, (h.fresh p g hfresh).2.1]
      simp
    · rw [Function.update_of_ne hg]
      simp [Ne.symm hg]
  holders := h.holders
  users := h.users
  used := h.used
  owned g howner := by
    change Function.update b.fCount f 0 g ≠ 0
    rw [Function.update_of_ne]
    · exact h.owned g howner
    · rintro rfl
      exact howner (h.fresh p g hfresh).1
  unowned g := by
    change Function.update b.fCount f 0 g ≠ 0 → b.owner g = none → ∃ q,
      Function.update b.fresh p (Function.update (b.fresh p) f false) q g = true ∨ _
    intro hg howner
    have hgf : g ≠ f := by
      rintro rfl
      exact hg (Function.update_self _ _ _)
    rw [Function.update_of_ne hgf] at hg
    obtain ⟨q, hq | hq⟩ := h.unowned g hg howner
    · refine ⟨q, .inl ?_⟩
      rw [update_row, if_neg fun he => hgf he.2, hq]
    · exact ⟨q, .inr hq⟩
  fresh q g := by
    change Function.update b.fresh p (Function.update (b.fresh p) f false) q g = true →
      b.owner g = none ∧ Function.update b.fCount f 0 g = 1 ∧
        ∃ fd', Function.update b.fds p (Function.update (b.fds p) fd none) q fd' = some g
    rw [update_row]
    intro hq
    split at hq
    · cases hq
    · next he =>
      obtain ⟨howner, hone, fd', hfd'⟩ := h.fresh q g hq
      have hgf : g ≠ f := by
        rintro rfl
        exact he ⟨h.eq_of_fresh hfresh hfd', rfl⟩
      rw [Function.update_of_ne hgf]
      refine ⟨howner, hone, fd', ?_⟩
      rw [update_row, if_neg, hfd']
      rintro ⟨rfl, rfl⟩
      rw [hfd] at hfd'
      cases hfd'
      exact hgf rfl
  textOwned := h.textOwned
  torn := h.torn_other rfl htearing (fun _ _ => rfl) (fun _ _ => rfl)
    (fun q j g _ hq => by
      refine ⟨rfl, Function.update_of_ne ?_ _ _, rfl⟩
      rintro rfl
      exact h.not_fresh_of_torn hq hfresh)
    fun _ _ _ _ _ => ⟨rfl, rfl, rfl⟩
  tornText := h.tornText

/-- A descriptor is cleared, its file not yet left. -/
theorem clearFd (h : b.Ok) (htearing : b.tearing p = none) (hfd : b.fds p fd = some f)
    (hclosing : b.closing p = none) (hfresh : b.fresh p f = false) : (b.clearFd p fd f).Ok where
  names g := by
    unfold Books.clearFd
    rw [names_setClosing, names_setFd]
    change b.fCount g =
      b.names g - (if b.fds p fd = some g then 1 else 0) + (if none = some g then 1 else 0) -
        (if b.closing p = some g then 1 else 0) + (if some f = some g then 1 else 0)
    rw [hfd, hclosing, ← h.names]
    simp
  holders := h.holders
  users := h.users
  used := h.used
  owned := h.owned
  unowned := h.unowned
  fresh q g hq := by
    obtain ⟨howner, hone, fd', hfd'⟩ := h.fresh q g hq
    refine ⟨howner, hone, fd', (update_row _ _ _ _ _ _).trans ?_⟩
    rw [if_neg, hfd']
    rintro ⟨rfl, rfl⟩
    rw [hfd] at hfd'
    cases hfd'
    exact Bool.false_ne_true (hfresh.symm.trans hq)
  textOwned := h.textOwned
  torn := h.torn_other rfl htearing (fun _ _ => rfl) (fun _ _ => rfl)
    (fun q _ _ hqp _ => ⟨rfl, rfl, Function.update_of_ne hqp _ _⟩)
    fun _ _ _ _ _ => ⟨rfl, rfl, rfl⟩
  tornText := h.tornText

/-- A file that others name as well is left. -/
theorem decFile (h : b.Ok) (htearing : b.tearing p = none) (hclosing : b.closing p = some f)
    (hcount : b.fCount f ≠ 1) : (b.decFile p f).Ok where
  names g := by
    unfold Books.decFile
    rw [names_setClosing]
    change Function.update b.fCount f (b.fCount f - 1) g =
      b.names g - (if b.closing p = some g then 1 else 0) + (if none = some g then 1 else 0)
    rw [hclosing, ← h.names]
    by_cases hg : g = f
    · subst hg
      rw [Function.update_self]
      simp
    · rw [Function.update_of_ne hg]
      simp [Ne.symm hg]
  holders := h.holders
  users := h.users
  used := h.used
  owned g howner := by
    change Function.update b.fCount f (b.fCount f - 1) g ≠ 0
    by_cases hg : g = f
    · subst hg
      rw [Function.update_self]
      omega
    · rw [Function.update_of_ne hg]
      exact h.owned g howner
  unowned g := by
    change Function.update b.fCount f (b.fCount f - 1) g ≠ 0 → _
    intro hg
    apply h.unowned g
    by_cases hgf : g = f
    · subst hgf
      have hone := one_le_tally hclosing
      have hsum : 0 ≤ ∑ q, tally (b.fds q) g := Finset.sum_nonneg fun q _ => tally_nonneg _ _
      rw [h.names]
      unfold Books.names
      omega
    · rwa [Function.update_of_ne hgf] at hg
  fresh q g hq := by
    obtain ⟨howner, hone, hfd⟩ := h.fresh q g hq
    refine ⟨howner, (Function.update_of_ne ?_ _ _).trans hone, hfd⟩
    rintro rfl
    exact hcount hone
  textOwned := h.textOwned
  torn := h.torn_other rfl htearing (fun _ _ => rfl) (fun _ _ => rfl)
    (fun q j g hqp hq => by
      refine ⟨rfl, Function.update_of_ne ?_ _ _, Function.update_of_ne hqp _ _⟩
      rintro rfl
      exact h.not_closing_of_torn hq hqp hclosing)
    fun _ _ _ _ _ => ⟨rfl, rfl, rfl⟩
  tornText := h.tornText

theorem dup (h : b.Ok) (htearing : b.tearing p = none) (hfd : b.fds p fd = none)
    (hfd' : b.fds p fd' = some f) (hfresh : b.fresh p f = false) : (b.dup p fd f).Ok where
  names g := by
    change Function.update b.fCount f (b.fCount f + 1) g = (b.setFd p fd (some f)).names g
    rw [names_setFd, hfd, ← h.names]
    by_cases hg : g = f
    · subst hg
      rw [Function.update_self]
      simp
    · rw [Function.update_of_ne hg]
      simp [Ne.symm hg]
  holders := h.holders
  users := h.users
  used := h.used
  owned g howner := by
    change Function.update b.fCount f (b.fCount f + 1) g ≠ 0
    by_cases hg : g = f
    · subst hg
      have hpos := h.fCount_pos hfd'
      rw [Function.update_self]
      omega
    · rw [Function.update_of_ne hg]
      exact h.owned g howner
  unowned g := by
    change Function.update b.fCount f (b.fCount f + 1) g ≠ 0 → _
    intro hg
    apply h.unowned g
    by_cases hgf : g = f
    · subst hgf
      exact (h.fCount_pos hfd').ne'
    · rwa [Function.update_of_ne hgf] at hg
  fresh q g hq := by
    obtain ⟨howner, hone, fd'', hfd''⟩ := h.fresh q g hq
    have hgf : g ≠ f := by
      rintro rfl
      obtain rfl := h.eq_of_fresh hq hfd'
      exact Bool.false_ne_true (hfresh.symm.trans hq)
    refine ⟨howner, (Function.update_of_ne hgf _ _).trans hone, fd'', ?_⟩
    refine (update_row _ _ _ _ _ _).trans ?_
    rw [if_neg, hfd'']
    rintro ⟨rfl, rfl⟩
    rw [hfd] at hfd''
    cases hfd''
  textOwned := h.textOwned
  torn := h.torn_other rfl htearing (fun _ _ => rfl) (fun _ _ => rfl)
    (fun q j g _ hq => by
      refine ⟨rfl, Function.update_of_ne ?_ _ _, rfl⟩
      rintro rfl
      exact h.not_fds_of_torn hq hfd')
    fun _ _ _ _ _ => ⟨rfl, rfl, rfl⟩
  tornText := h.tornText

/-- A process without descriptors, directory and text segment gets those of `p`. -/
theorem clone (h : b.Ok) (hfds : ∀ fd, b.fds child fd = none) (hcwd : b.cwd child = none)
    (htext : b.textUse child = none) (hfresh : ∀ f, b.fresh p f = false)
    (htearing : b.tearing child = none) : (b.clone p child).Ok where
  names f := by
    have hsum : ∑ q, tally ((b.clone p child).fds q) f =
        ∑ q, tally (b.fds q) f - tally (b.fds child) f + tally (b.fds p) f :=
      sum_update b.fds child _ fun g => tally g f
    have hnone : tally (b.fds child) f = 0 := by
      rw [funext hfds]
      exact tally_none f
    unfold Books.names
    rw [hsum, hnone]
    change b.fCount f + tally (b.fds p) f = _ + tally b.closing f
    rw [h.names]
    unfold Books.names
    ring
  holders i := by
    have hclone : (b.clone p child).holders i = b.holders i -
        (if b.cwd child = some i then 1 else 0) + (if b.cwd p = some i then 1 else 0) := by
      simp only [Books.clone, Books.holders, tally_update]
      ring
    rw [hclone, hcwd, ← h.holders]
    change b.count i + _ = _
    simp
  users t hx := by
    change b.xCount t + _ = tally (Function.update b.textUse child (b.textUse p)) t
    rw [tally_update, htext, ← h.users t hx]
    simp
  used q t hq := by
    change Function.update b.textUse child (b.textUse p) q = some t at hq
    by_cases hqc : q = child
    · subst hqc
      rw [Function.update_self] at hq
      exact h.used p t hq
    · rw [Function.update_of_ne hqc] at hq
      exact h.used q t hq
  owned f howner := by
    change b.fCount f + tally (b.fds p) f ≠ 0
    have hcount := h.owned f howner
    have hnames := names_nonneg (b := b) (f := f)
    have htally := tally_nonneg (b.fds p) f
    rw [← h.names] at hnames
    omega
  unowned f hf := by
    change b.fCount f + tally (b.fds p) f ≠ 0 at hf
    apply h.unowned f
    intro hzero
    have hle := tally_fds_le (b := b) p f
    have hclosing := tally_nonneg b.closing f
    have htally := tally_nonneg (b.fds p) f
    have hnames := h.names f
    unfold Books.names at hnames
    omega
  fresh q f hq := by
    obtain ⟨howner, hone, fd, hfd⟩ := h.fresh q f hq
    have hp : ∀ fd, b.fds p fd ≠ some f := by
      intro fd hfd
      obtain rfl := h.eq_of_fresh hq hfd
      exact Bool.false_ne_true ((hfresh f).symm.trans hq)
    refine ⟨howner, ?_, fd, ?_⟩
    · change b.fCount f + tally (b.fds p) f = 1
      rw [tally_eq_zero hp, hone, add_zero]
    · change Function.update b.fds child (b.fds p) q fd = some f
      rw [Function.update_of_ne, hfd]
      rintro rfl
      rw [hfds] at hfd
      cases hfd
  textOwned := h.textOwned
  torn q j src hq := by
    obtain ⟨href, hsrc⟩ := h.torn q j src hq
    have hqc : q ≠ child := ne_of_tearing htearing hq
    refine ⟨href, hsrc.congr ?_ ?_ (Function.update_of_ne hqc _ _) fun _ => le_rfl⟩
    · rintro f rfl
      refine ⟨rfl, ?_, rfl⟩
      change b.fCount f + tally (b.fds p) f = b.fCount f
      rw [tally_eq_zero fun fd => h.not_fds_of_torn hq, add_zero]
    · rintro t rfl
      refine ⟨rfl, rfl, ?_⟩
      change b.xCount t + _ = b.xCount t
      rw [if_neg (h.not_textUse_of_torn hq), add_zero]
  tornText := h.tornText

/-! ### Text segments -/

/-- One more process uses the text segment. -/
theorem shareText (h : b.Ok) (htearing : b.tearing p = none) (huse : b.textUse p = none)
    (howner : b.textOwner t = some i) : (b.shareText p t).Ok where
  names := h.names
  holders j := by
    unfold Books.shareText
    change b.count j = (b.setText t (b.xIptr t) (b.textOwner t) (b.xCount t + 1)).holders j
    rw [holders_setText, h.holders]
    ring
  users u := by
    change Function.update b.xIptr t (b.xIptr t) u ≠ none →
      Function.update b.xCount t (b.xCount t + 1) u =
        tally (Function.update b.textUse p (some t)) u
    rw [Function.update_eq_self, tally_update, huse]
    intro hx
    rw [← h.users u hx]
    by_cases hu : u = t
    · subst hu
      rw [Function.update_self]
      simp
    · rw [Function.update_of_ne hu]
      simp [Ne.symm hu]
  used q u hq := by
    change Function.update b.textUse p (some t) q = some u at hq
    change Function.update b.xIptr t (b.xIptr t) u ≠ none
    rw [Function.update_eq_self]
    by_cases hqp : q = p
    · subst hqp
      rw [Function.update_self] at hq
      cases hq
      rw [h.xIptr_of_owner howner]
      exact Option.some_ne_none i
    · rw [Function.update_of_ne hqp] at hq
      exact h.used q u hq
  owned := h.owned
  unowned := h.unowned
  fresh := h.fresh
  textOwned u := by
    change Function.update b.textOwner t (b.textOwner t) u ≠
      Function.update b.xIptr t (b.xIptr t) u → _
    rw [Function.update_eq_self, Function.update_eq_self]
    exact h.textOwned u
  torn := h.torn_other rfl htearing (fun _ _ => rfl) (fun _ _ => rfl)
    (fun _ _ _ _ _ => ⟨rfl, rfl, rfl⟩)
    fun q j u _ hq => by
      refine ⟨congrFun (Function.update_eq_self t b.xIptr) u,
        congrFun (Function.update_eq_self t b.textOwner) u, Function.update_of_ne ?_ _ _⟩
      rintro rfl
      rw [(h.torn q j _ hq).2.2.1] at howner
      cases howner
  tornText := h.tornText

/-- A free text segment is taken, with a new reference to the inode. -/
theorem newText (h : b.Ok) (htearing : b.tearing p = none) (huse : b.textUse p = none)
    (hfree : b.xIptr t = none) : (b.newText p i t).Ok := by
  have howner : b.textOwner t = none := by
    by_contra hne
    obtain ⟨q, j, hq⟩ := h.textOwned t (hfree ▸ hne)
    exact hne (h.torn q j _ hq).2.2.1
  have hunused : ∀ q, b.textUse q ≠ some t := fun q hq => h.used q t hq hfree
  constructor
  case names => exact h.names
  case holders =>
    intro j
    unfold Books.newText
    change Function.update b.count i (b.count i + 1) j =
      ((b.setCount i (b.count i + 1)).setText t (some i) (some i) 1).holders j
    rw [holders_setText, show (b.setCount i (b.count i + 1)).textOwner t = none from howner]
    change _ = b.holders j - _ + _
    rw [← h.holders]
    by_cases hj : j = i
    · subst hj
      rw [Function.update_self]
      simp
    · rw [Function.update_of_ne hj]
      simp [Ne.symm hj]
  case users =>
    intro u
    change Function.update b.xIptr t (some i) u ≠ none → Function.update b.xCount t 1 u =
      tally (Function.update b.textUse p (some t)) u
    rw [tally_update, huse]
    intro hx
    by_cases hu : u = t
    · subst hu
      rw [Function.update_self, tally_eq_zero hunused]
      simp
    · rw [Function.update_of_ne hu] at hx ⊢
      rw [h.users u hx]
      simp [Ne.symm hu]
  case used =>
    intro q u hq
    change Function.update b.textUse p (some t) q = some u at hq
    change Function.update b.xIptr t (some i) u ≠ none
    by_cases hu : u = t
    · subst hu
      rw [Function.update_self]
      exact Option.some_ne_none i
    · rw [Function.update_of_ne hu]
      apply h.used q u
      by_cases hqp : q = p
      · subst hqp
        rw [Function.update_self] at hq
        cases hq
        exact absurd rfl hu
      · rwa [Function.update_of_ne hqp] at hq
  case owned => exact h.owned
  case unowned => exact h.unowned
  case fresh => exact h.fresh
  case textOwned =>
    intro u
    change Function.update b.textOwner t (some i) u ≠ Function.update b.xIptr t (some i) u → _
    by_cases hu : u = t
    · subst hu
      rw [Function.update_self, Function.update_self]
      exact fun hne => absurd rfl hne
    · rw [Function.update_of_ne hu, Function.update_of_ne hu]
      exact h.textOwned u
  case torn =>
    refine h.torn_other rfl htearing (fun _ _ => rfl) (fun _ _ => rfl)
      (fun _ _ _ _ _ => ⟨rfl, rfl, rfl⟩) fun q j u _ hq => ?_
    have hu : u ≠ t := by
      rintro rfl
      rw [(h.torn q j _ hq).2.1] at hfree
      cases hfree
    exact ⟨Function.update_of_ne hu _ _, Function.update_of_ne hu _ _,
      Function.update_of_ne hu _ _⟩
  case tornText => exact h.tornText

/-- A process leaves its text segment. -/
theorem decText (h : b.Ok) (htearing : b.tearing p = none) (huse : b.textUse p = some t) :
    (b.decText p t).Ok where
  names := h.names
  holders j := by
    unfold Books.decText
    change b.count j = (b.setText t (b.xIptr t) (b.textOwner t) (b.xCount t - 1)).holders j
    rw [holders_setText, h.holders]
    ring
  users u := by
    change Function.update b.xIptr t (b.xIptr t) u ≠ none →
      Function.update b.xCount t (b.xCount t - 1) u = tally (Function.update b.textUse p none) u
    rw [Function.update_eq_self, tally_update, huse]
    intro hx
    rw [← h.users u hx]
    by_cases hu : u = t
    · subst hu
      rw [Function.update_self]
      simp
    · rw [Function.update_of_ne hu]
      simp [Ne.symm hu]
  used q u hq := by
    change Function.update b.textUse p none q = some u at hq
    change Function.update b.xIptr t (b.xIptr t) u ≠ none
    rw [Function.update_eq_self]
    by_cases hqp : q = p
    · subst hqp
      rw [Function.update_self] at hq
      cases hq
    · rw [Function.update_of_ne hqp] at hq
      exact h.used q u hq
  owned := h.owned
  unowned := h.unowned
  fresh := h.fresh
  textOwned u := by
    change Function.update b.textOwner t (b.textOwner t) u ≠
      Function.update b.xIptr t (b.xIptr t) u → _
    rw [Function.update_eq_self, Function.update_eq_self]
    exact h.textOwned u
  torn := h.torn_other rfl htearing (fun _ _ => rfl) (fun _ _ => rfl)
    (fun _ _ _ _ _ => ⟨rfl, rfl, rfl⟩)
    fun q j u _ hq => by
      refine ⟨congrFun (Function.update_eq_self t b.xIptr) u,
        congrFun (Function.update_eq_self t b.textOwner) u, Function.update_of_ne ?_ _ _⟩
      rintro rfl
      exact h.not_textUse_of_torn hq huse
  tornText := h.tornText

/-! ### Nothing in hand -/

/-- When nobody has anything in hand, the counts are those of the tables. -/
theorem quiet (h : b.Ok) (hrefs : ∀ p i, b.refs p i = 0) (hclosing : ∀ p, b.closing p = none)
    (hfresh : ∀ p f, b.fresh p f = false) (htearing : ∀ p, b.tearing p = none) :
    (∀ f, b.fCount f = ∑ q, tally (b.fds q) f) ∧
      (∀ i, b.count i = tally b.cwd i + tally b.owner i + tally b.xIptr i +
        tally (fun _ : Unit => some b.root) i + b.lost i) ∧
      ∀ f, b.owner f ≠ none ↔ b.fCount f ≠ 0 := by
  refine ⟨fun f => ?_, fun i => ?_, fun f => ⟨h.owned f, fun hf howner => ?_⟩⟩
  · rw [h.names]
    unfold Books.names
    rw [funext hclosing, tally_none, add_zero]
  · have htext : b.textOwner = b.xIptr := by
      funext t
      by_contra hne
      obtain ⟨q, j, hq⟩ := h.textOwned t hne
      rw [htearing] at hq
      cases hq
    rw [h.holders]
    unfold Books.holders
    simp only [hrefs, Nat.cast_zero, Finset.sum_const_zero, htext, zero_add]
  · obtain ⟨q, hq | ⟨j, hq⟩⟩ := h.unowned f hf howner
    · exact Bool.false_ne_true ((hfresh q f).symm.trans hq)
    · rw [htearing] at hq
      cases hq

end Ok
end Books
end UnixV6pp
