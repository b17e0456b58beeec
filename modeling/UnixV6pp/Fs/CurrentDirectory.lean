import UnixV6pp.Fs.LongNames
import Mathlib.Logic.Relation

/-!
# The name of the current directory

`ChDir` keeps the current directory twice, as an inode and as a string.  The string is made by
writing the path of the call behind the one there is; neither `.` and `..` nor repeated slashes are
taken out again, and nothing looks at the end of the array.

The directories are a map from an inode and a component, as `u_dbuf` holds it, to an inode; it
does not change, and it leads nowhere from what is no directory or may not be searched.

* `names` — the components of a path.
* `namePath_eq` — `NameI` follows the components.
* `Holding.describes_iff` — a successful call keeps the string exactly when the new one fits.
* `curdir_run` — **the string in every run** in which the paths fit.
-/

namespace UnixV6pp
namespace FileManager

/-! ### Components -/

/-- The components of a path. -/
def names (path : List UInt8) : List (List UInt8) :=
  (path.splitOnP (· == slash)).filter fun bs => !bs.isEmpty

variable {cs ds bs rest dirp : List UInt8} {curchar : UInt8}

theorem names_append (cs ds : List UInt8) : names (cs ++ slash :: ds) = names cs ++ names ds := by
  unfold names
  rw [List.splitOnP_append_cons cs ds (by simp), List.filter_append]

@[simp] theorem names_nil : names [] = [] := rfl

theorem names_slash (cs : List UInt8) : names (slash :: cs) = names cs := names_append [] cs

theorem names_component (hne : bs ≠ []) (hbs : ∀ b ∈ bs, b ≠ slash) : names bs = [bs] := by
  unfold names
  rw [List.splitOnP_eq_singleton fun b hb => by simpa using hbs b hb]
  simp [hne]

/-- A path without a slash at its front starts with a component. -/
theorem exists_component (hne : cs ≠ []) (hhead : cs.head? ≠ some slash) :
    ∃ bs ds, cs = bs ++ ds ∧ bs ≠ [] ∧ (∀ b ∈ bs, b ≠ slash) ∧ (ds = [] ∨ ∃ es, ds = slash :: es) := by
  induction cs with
  | nil => exact absurd rfl hne
  | cons c cs ih =>
    have hc : c ≠ slash := by simpa using hhead
    by_cases hend : cs = [] ∨ cs.head? = some slash
    · refine ⟨[c], cs, rfl, by simp, by simpa using hc, ?_⟩
      rcases hend with rfl | hslash
      · exact .inl rfl
      · obtain ⟨es, rfl⟩ := List.head?_eq_some_iff.mp hslash
        exact .inr ⟨es, rfl⟩
    · rw [not_or] at hend
      obtain ⟨bs, ds, rfl, -, hbs, hds⟩ := ih hend.1 hend.2
      exact ⟨c :: bs, ds, rfl, by simp, by simpa [hc] using hbs, hds⟩

/-- That component is the first. -/
theorem names_component_append (hne : bs ≠ []) (hbs : ∀ b ∈ bs, b ≠ slash)
    (hds : ds = [] ∨ ∃ es, ds = slash :: es) : names (bs ++ ds) = bs :: names ds := by
  rcases hds with rfl | ⟨es, rfl⟩
  · rw [List.append_nil, names_component hne hbs, names_nil]
  · rw [names_append, names_component hne hbs, names_slash]
    rfl

/-! ### Following a path -/

variable {ι : Type} (find : ι → (ℕ → UInt8) → Option ι)

/-- The outer loop of `NameI`, in mode `OPEN`. -/
def walkPath : ℕ → ι → (ℕ → UInt8) → UInt8 → List UInt8 → Except Stop (Option ι)
  | 0, _, _, _, _ => .error .running
  | fuel + 1, ino, dbuf, curchar, dirp =>
    if curchar = 0 then .ok (some ino)
    else do
      let (dbuf, pChar, curchar, dirp) ← copyComponent dbuf 0 curchar dirp
      let dbuf k := if k < pChar then dbuf k else 0
      let (curchar, dirp) ← skipSlashes curchar dirp
      match find ino dbuf with
      | none => return none
      | some ino => walkPath fuel ino dbuf curchar dirp

/-- `FileManager::NameI` in mode `OPEN`, for the path in memory from `u_dirp` on; `u_dbuf` holds
`dbuf` before. -/
def namePath (root cdir : ι) (dbuf : ℕ → UInt8) : List UInt8 → Except Stop (Option ι)
  | [] => .error .outside
  | c :: dirp => do
    let ino := if c = slash then root else cdir
    let (curchar, rest) ← skipSlashes c dirp
    walkPath find (dirp.length + 2) ino dbuf curchar rest

/-- Follow components. -/
def walkNames (ino : ι) (bss : List (List UInt8)) : Option ι :=
  bss.foldlM (fun ino bs => find ino (stored bs)) ino

theorem walkNames_append (ino : ι) (bss css : List (List UInt8)) :
    walkNames find ino (bss ++ css) = (walkNames find ino bss).bind fun j => walkNames find j css := by
  unfold walkNames
  rw [List.foldlM_append]
  rfl

/-- Slashes are passed over. -/
theorem skipSlashes_chars (cs : List UInt8) (hchars : curchar :: dirp = cs ++ 0 :: rest) :
    ∃ c dirp' cs', skipSlashes curchar dirp = .ok (c, dirp') ∧ c :: dirp' = cs' ++ 0 :: rest ∧
      cs' <:+ cs ∧ cs'.head? ≠ some slash ∧ names cs' = names cs := by
  induction cs generalizing curchar dirp with
  | nil =>
    cases hchars
    refine ⟨0, rest, [], ?_, rfl, List.suffix_rfl, by simp, rfl⟩
    rw [skipSlashes.eq_def, if_neg (by decide)]
  | cons b cs ih =>
    obtain ⟨rfl, hdirp⟩ := List.cons.inj hchars
    by_cases hslash : curchar = slash
    · cases dirp with
      | nil => simp at hdirp
      | cons c' dirp' =>
        obtain ⟨c, dirp'', cs', hskip, hchars', hsuffix, hhead, hnames⟩ := ih hdirp
        refine ⟨c, dirp'', cs', ?_, hchars', hsuffix.trans (List.suffix_cons _ _), hhead, ?_⟩
        · rw [skipSlashes.eq_def, if_pos hslash]
          exact hskip
        · rw [hnames, hslash, names_slash]
    · refine ⟨curchar, dirp, curchar :: cs, ?_, hchars, List.suffix_rfl, by simpa using hslash, rfl⟩
      rw [skipSlashes.eq_def, if_neg hslash]

/-- **The loop follows the components.** -/
theorem walkPath_eq {fuel : ℕ} (cs : List UInt8) (hzero : ∀ b ∈ cs, b ≠ 0)
    (hhead : cs.head? ≠ some slash) (hfuel : cs.length < fuel) (ino : ι) (dbuf : ℕ → UInt8)
    (hchars : curchar :: dirp = cs ++ 0 :: rest) :
    walkPath find fuel ino dbuf curchar dirp = .ok (walkNames find ino (names cs)) := by
  induction fuel generalizing cs ino dbuf curchar dirp with
  | zero => exact absurd hfuel (Nat.not_lt_zero _)
  | succ fuel ih =>
    by_cases hne : cs = []
    · subst hne
      cases hchars
      rw [walkPath, if_pos rfl]
      rfl
    · obtain ⟨bs, ds, rfl, hbne, hbs, hds⟩ := exists_component hne hhead
      have hbs' : ∀ b ∈ bs, b ≠ 0 ∧ b ≠ slash := fun b hb => ⟨hzero b (by simp [hb]), hbs b hb⟩
      -- the character behind the component
      obtain ⟨c, more, hmore, hc⟩ : ∃ c more, ds ++ 0 :: rest = c :: more ∧ (c = slash ∨ c = 0) := by
        rcases hds with rfl | ⟨es, rfl⟩
        · exact ⟨0, rest, rfl, .inr rfl⟩
        · exact ⟨slash, es ++ 0 :: rest, rfl, .inl rfl⟩
      rw [List.append_assoc, hmore] at hchars
      obtain ⟨dbuf', pChar, hcopy, hstored⟩ := copyComponent_stored dbuf hbs' hc hchars
      obtain ⟨c', dirp', ds', hskip, hchars', hsuffix, hhead', hnames⟩ :=
        skipSlashes_chars ds hmore.symm
      have hcurchar : curchar ≠ 0 := by
        cases bs with
        | nil => exact absurd rfl hbne
        | cons b bs =>
          obtain ⟨rfl, -⟩ := List.cons.inj hchars
          exact (hbs' curchar (by simp)).1
      have hlength : ds'.length < fuel := by
        have hle := hsuffix.length_le
        have hpos := List.length_pos_of_ne_nil hbne
        rw [List.length_append] at hfuel
        omega
      have hzero' : ∀ b ∈ ds', b ≠ 0 := fun b hb => hzero b (by simp [hsuffix.mem hb])
      rw [walkPath, if_neg hcurchar, hcopy, Except.ok_bind]
      dsimp only
      rw [hskip, Except.ok_bind, hstored, names_component_append hbne hbs hds]
      unfold walkNames
      rw [List.foldlM_cons]
      cases hfind : find ino (stored bs) with
      | none => rfl
      | some ino' =>
        change walkPath find fuel ino' (stored bs) c' dirp' = _
        rw [ih ds' hzero' hhead' hlength ino' _ hchars', hnames]
        rfl

/-- **`NameI` follows the components** of the path, from the root if it starts with a slash. -/
theorem namePath_eq (root cdir : ι) (dbuf : ℕ → UInt8) (cs rest : List UInt8)
    (hzero : ∀ b ∈ cs, b ≠ 0) :
    namePath find root cdir dbuf (cs ++ 0 :: rest) =
      .ok (walkNames find (if cs.head? = some slash then root else cdir) (names cs)) := by
  obtain ⟨c, dirp, hchars⟩ : ∃ c dirp, cs ++ 0 :: rest = c :: dirp := by
    cases cs with
    | nil => exact ⟨0, rest, rfl⟩
    | cons c cs => exact ⟨c, cs ++ 0 :: rest, rfl⟩
  have hfirst : c = slash ↔ cs.head? = some slash := by
    cases cs with
    | nil =>
      obtain ⟨rfl, -⟩ := List.cons.inj hchars
      decide
    | cons b cs =>
      obtain ⟨rfl, -⟩ := List.cons.inj hchars
      simp
  obtain ⟨c', dirp', cs', hskip, hchars', hsuffix, hhead, hnames⟩ := skipSlashes_chars cs hchars.symm
  have hlength : cs'.length < dirp.length + 2 := by
    have hle := hsuffix.length_le
    have htotal := congrArg List.length hchars
    rw [List.length_append, List.length_cons, List.length_cons] at htotal
    omega
  have hzero' : ∀ b ∈ cs', b ≠ 0 := fun b hb => hzero b (hsuffix.mem hb)
  rw [hchars]
  unfold namePath
  dsimp only
  rw [hskip, Except.ok_bind]
  dsimp only
  rw [walkPath_eq find cs' hzero' hhead hlength _ _ hchars', hnames]
  simp only [hfirst]

/-! ### The calls -/

/-- `Utility::StringCopy` to memory, from `place` on. -/
def stringCopy : List UInt8 → (ℕ → UInt8) → ℕ → Except Stop (ℕ → UInt8)
  | [], _, _ => .error .outside
  | c :: src, dst, place =>
    let dst := Function.update dst place c
    if c = 0 then .ok dst else stringCopy src dst (place + 1)

/-- The current directory of a process. -/
structure Working (ι : Type) where
  /-- The bytes of `u` from `u_curdir` on; the array has 512 of them. -/
  uCurdir : ℕ → UInt8
  uCdir : ι

/-- What stands in the array. -/
def Working.array (w : Working ι) : List UInt8 := (List.range 512).map w.uCurdir

/-- `FileManager::SetCurDir`; a string without an end, or an empty one, would be looked at outside
the array. -/
def setCurDir (uCurdir : ℕ → UInt8) (pathname : List UInt8) : Except Stop (ℕ → UInt8) := do
  if pathname.head? ≠ some slash then
    let length ← stringLength ((List.range 512).map uCurdir)
    if length = 0 then
      throw .outside
    let slashed := uCurdir (length - 1) = slash
    let uCurdir := if slashed then uCurdir else Function.update uCurdir length slash
    stringCopy pathname uCurdir (if slashed then length else length + 1)
  else
    stringCopy pathname uCurdir 0

/-- `FileManager::ChDir`, or `none` when it fails; `enterable` says what is a directory that may be
searched. -/
def chDir (enterable : ι → Bool) (root : ι) (w : Working ι) (dbuf : ℕ → UInt8)
    (path : List UInt8) : Except Stop (Option (Working ι)) := do
  match ← namePath find root w.uCdir dbuf path with
  | none => return none
  | some ino =>
    if enterable ino then
      let uCurdir ← setCurDir w.uCurdir path
      return some ⟨uCurdir, ino⟩
    else
      return none

/-! ### Runs -/

/-- The characters of a string before its end. -/
def chars (string : List UInt8) : List UInt8 := string.takeWhile (· != 0)

/-- How long the string in `u_curdir` is after a successful `ChDir`. -/
def lengthAfter (w : Working ι) (path : List UInt8) : ℕ :=
  if path.head? = some slash then (chars path).length
  else if (chars w.array).getLast? = some slash then (chars w.array).length + (chars path).length
  else (chars w.array).length + 1 + (chars path).length

/-- What the string should be: it ends in the array, nothing behind the array has changed, and it
leads from the root to the current directory. -/
structure Describes (root : ι) (w₀ w : Working ι) : Prop where
  terminated : ∃ n < 512, w.uCurdir n = 0
  untouched : ∀ k, 512 ≤ k → w.uCurdir k = w₀.uCurdir k
  resolves : ∀ dbuf, namePath find root w.uCdir dbuf w.array = .ok (some w.uCdir)

/-- The string `cs` is in the array. -/
structure Holding (root : ι) (cs : List UInt8) (w : Working ι) : Prop where
  length_le : cs.length ≤ 511
  head : cs.head? = some slash
  ne_zero : ∀ b ∈ cs, b ≠ 0
  byte_eq : ∀ k < cs.length, w.uCurdir k = cs.getD k 0
  end_eq : w.uCurdir cs.length = 0
  leads : walkNames find root (names cs) = some w.uCdir

variable {find}
variable {root : ι} {w w' w₀ : Working ι} {path : List UInt8} {enterable : ι → Bool}

theorem chars_append (hzero : ∀ b ∈ cs, b ≠ 0) (rest : List UInt8) :
    chars (cs ++ 0 :: rest) = cs := by
  unfold chars
  rw [List.takeWhile_append_of_pos fun b hb => by simpa using hzero b hb]
  simp

/-- What is copied, and where to. -/
theorem stringCopy_ok {dst dst' : ℕ → UInt8} {place : ℕ} (h : stringCopy path dst place = .ok dst') :
    ∃ ps rest, path = ps ++ 0 :: rest ∧ (∀ b ∈ ps, b ≠ 0) ∧
      (∀ k < ps.length, dst' (place + k) = ps.getD k 0) ∧ dst' (place + ps.length) = 0 ∧
      ∀ k, k < place ∨ place + ps.length < k → dst' k = dst k := by
  induction path generalizing dst place with
  | nil => cases h
  | cons c path ih =>
    unfold stringCopy at h
    dsimp only at h
    split at h
    · next hc =>
      cases h
      refine ⟨[], path, by rw [hc]; rfl, by simp, by simp, ?_, ?_⟩
      · rw [← hc]
        exact Function.update_self _ _ _
      · intro k hk
        rw [List.length_nil, Nat.add_zero] at hk
        exact Function.update_of_ne (by omega) _ _
    · next hc =>
      obtain ⟨ps, rest, rfl, hps, hnew, hend, hold⟩ := ih h
      have hshift : place + (c :: ps).length = place + 1 + ps.length := by
        rw [List.length_cons]
        omega
      refine ⟨c :: ps, rest, rfl, by simpa [hc] using hps, ?_, ?_, ?_⟩
      · intro k hk
        cases k with
        | zero =>
          rw [Nat.add_zero, hold place (.inl (Nat.lt_succ_self _))]
          exact Function.update_self _ _ _
        | succ k =>
          have hidx : place + (k + 1) = place + 1 + k := by omega
          rw [hidx, hnew k (by simpa using hk)]
          rfl
      · rw [hshift]
        exact hend
      · intro k hk
        rw [hshift] at hk
        rw [hold k (by omega)]
        exact Function.update_of_ne (by omega) _ _

/-- The array is the string, its end, and anything. -/
theorem Holding.array_eq (h : Holding find root cs w) : ∃ more, w.array = cs ++ 0 :: more := by
  have hle := h.length_le
  obtain ⟨m, hm⟩ : ∃ m, 512 = cs.length + (m + 1) := ⟨511 - cs.length, by omega⟩
  have hbytes : (List.range cs.length).map w.uCurdir = cs := by
    refine List.ext_getElem (by simp) fun k hk hk' => ?_
    rw [List.getElem_map, List.getElem_range, h.byte_eq k hk']
    simp [List.getD_eq_getElem?_getD, hk']
  refine ⟨(List.range m).map fun k => w.uCurdir (cs.length + (k + 1)), ?_⟩
  unfold Working.array
  rw [hm, List.range_add, List.map_append, hbytes, List.range_succ_eq_map, List.map_cons,
    List.map_cons, Nat.add_zero, h.end_eq, List.map_map, List.map_map]
  rfl

/-- **A string in the array describes the current directory.** -/
theorem Holding.describes (h : Holding find root cs w)
    (huntouched : ∀ k, 512 ≤ k → w.uCurdir k = w₀.uCurdir k) : Describes find root w₀ w := by
  have hle := h.length_le
  refine ⟨⟨cs.length, by omega, h.end_eq⟩, huntouched, fun dbuf => ?_⟩
  obtain ⟨more, harray⟩ := h.array_eq
  rw [harray, namePath_eq find _ _ _ _ _ h.ne_zero, if_pos h.head, h.leads]

/-- Copying a string behind another. -/
theorem held_append {qs ps : List UInt8} {d d' : ℕ → UInt8} (hqs : ∀ k < qs.length, d k = qs.getD k 0)
    (hnew : ∀ k < ps.length, d' (qs.length + k) = ps.getD k 0)
    (hold : ∀ k, k < qs.length ∨ qs.length + ps.length < k → d' k = d k) :
    ∀ k < (qs ++ ps).length, d' k = (qs ++ ps).getD k 0 := by
  intro k hk
  rw [List.length_append] at hk
  rw [List.getD_eq_getElem?_getD]
  by_cases hlt : k < qs.length
  · rw [hold k (.inl hlt), hqs k hlt, List.getElem?_append_left hlt, List.getD_eq_getElem?_getD]
  · obtain ⟨j, rfl⟩ : ∃ j, k = qs.length + j := ⟨k - qs.length, by omega⟩
    rw [hnew j (by omega), List.getElem?_append_right (Nat.le_add_right _ _),
      Nat.add_sub_cancel_left, List.getD_eq_getElem?_getD]

/-- The last character of the string in the array. -/
theorem Holding.last_eq (h : Holding find root cs w) :
    w.uCurdir (cs.length - 1) = slash ↔ cs.getLast? = some slash := by
  have hne : cs ≠ [] := by
    rintro rfl
    exact absurd h.head (by simp)
  have hpos := List.length_pos_of_ne_nil hne
  rw [h.byte_eq _ (by omega), List.getLast?_eq_getElem?, List.getD_eq_getElem?_getD,
    List.getElem?_eq_getElem (by omega)]
  simp

/-- What a successful call writes: the string `cs'`, which leads where the path does. -/
structure Writes (find : ι → (ℕ → UInt8) → Option ι) (root : ι) (w : Working ι) (path cs' : List UInt8)
    (d' : ℕ → UInt8) : Prop where
  length_eq : cs'.length = lengthAfter w path
  head : cs'.head? = some slash
  ne_zero : ∀ b ∈ cs', b ≠ 0
  byte_eq : ∀ k < cs'.length, d' k = cs'.getD k 0
  end_eq : d' cs'.length = 0
  beyond : ∀ k, cs'.length < k → d' k = w.uCurdir k
  leads : ∀ dbuf, namePath find root w.uCdir dbuf path = .ok (walkNames find root (names cs'))

/-- An absolute path takes the place of the string. -/
theorem setCurDir_absolute {d' : ℕ → UInt8} (hhead : path.head? = some slash)
    (hset : setCurDir w.uCurdir path = .ok d') : ∃ cs', Writes find root w path cs' d' := by
  unfold setCurDir at hset
  rw [if_neg (not_not.mpr hhead)] at hset
  obtain ⟨ps, rest, rfl, hps, hnew, hend, hold⟩ := stringCopy_ok hset
  have hps' : ps.head? = some slash := by
    cases ps with
    | nil => cases hhead
    | cons p ps => exact hhead
  rw [Nat.zero_add] at hend
  refine ⟨ps, ?_, hps', hps, fun k hk => ?_, hend, fun k hk => hold k (by omega), fun dbuf => ?_⟩
  · unfold lengthAfter
    rw [if_pos hhead, chars_append hps]
  · have hbyte := hnew k hk
    rw [Nat.zero_add] at hbyte
    exact hbyte
  · rw [namePath_eq find _ _ _ _ _ hps, if_pos hps']

/-- The string with a slash at its end. -/
def slashed (cs : List UInt8) : List UInt8 := if cs.getLast? = some slash then cs else cs ++ [slash]

theorem names_slashed (cs ps : List UInt8) : names (slashed cs ++ ps) = names cs ++ names ps := by
  unfold slashed
  split
  · next hslash =>
    obtain ⟨ds, rfl⟩ := List.getLast?_eq_some_iff.mp hslash
    rw [List.append_assoc]
    change names (ds ++ slash :: ps) = names (ds ++ slash :: []) ++ names ps
    rw [names_append, names_append, names_nil, List.append_nil]
  · rw [List.append_assoc]
    exact names_append cs ps

theorem length_slashed (cs : List UInt8) :
    (slashed cs).length = if cs.getLast? = some slash then cs.length else cs.length + 1 := by
  unfold slashed
  split
  · rfl
  · exact List.length_append

theorem slashed_ne_zero (hzero : ∀ b ∈ cs, b ≠ 0) : ∀ b ∈ slashed cs, b ≠ 0 := by
  intro b hb
  unfold slashed at hb
  split at hb
  · exact hzero b hb
  · rcases List.mem_append.mp hb with hb | hb
    · exact hzero b hb
    · rw [List.mem_singleton.mp hb]
      decide

/-- `SetCurDir` puts the slash first. -/
theorem Holding.slashed_byte (h : Holding find root cs w) : ∀ k < (slashed cs).length,
    (if cs.getLast? = some slash then w.uCurdir else Function.update w.uCurdir cs.length slash) k =
      (slashed cs).getD k 0 := by
  intro k hk
  rw [length_slashed] at hk
  unfold slashed
  split at hk
  · next hslash =>
    rw [if_pos hslash, if_pos hslash]
    exact h.byte_eq k hk
  · next hslash =>
    rw [if_neg hslash, if_neg hslash, List.getD_eq_getElem?_getD]
    rcases Nat.lt_succ_iff_lt_or_eq.mp hk with hlt | rfl
    · rw [Function.update_of_ne (by omega), h.byte_eq k hlt, List.getElem?_append_left hlt,
        List.getD_eq_getElem?_getD]
    · rw [Function.update_self, List.getElem?_append_right (Nat.le_refl _), Nat.sub_self]
      rfl

/-- A relative path is written behind the string. -/
theorem Holding.setCurDir_relative (h : Holding find root cs w) {d' : ℕ → UInt8}
    (hhead : path.head? ≠ some slash) (hset : setCurDir w.uCurdir path = .ok d') :
    ∃ cs', Writes find root w path cs' d' := by
  obtain ⟨more, harray⟩ := h.array_eq
  have hlength : stringLength ((List.range 512).map w.uCurdir) = .ok cs.length := by
    change stringLength w.array = _
    rw [harray, stringLength_append_ne h.ne_zero, stringLength, if_pos rfl]
    exact congrArg Except.ok (Nat.zero_add _)
  have hpos : cs.length ≠ 0 := by
    intro h0
    have hhead := h.head
    rw [List.length_eq_zero_iff.mp h0] at hhead
    cases hhead
  unfold setCurDir at hset
  rw [if_pos hhead, hlength, Except.ok_bind] at hset
  dsimp only at hset
  rw [if_neg hpos] at hset
  simp only [h.last_eq] at hset
  rw [← length_slashed] at hset
  obtain ⟨ps, rest, rfl, hps, hnew, hend, hold⟩ := stringCopy_ok hset
  have hps' : ps.head? ≠ some slash := by
    cases ps with
    | nil => simp
    | cons p ps => exact hhead
  have hhead' : (slashed cs ++ ps).head? = some slash := by
    unfold slashed
    split
    · rw [List.head?_append, h.head]
      rfl
    · rw [List.append_assoc, List.head?_append, h.head]
      rfl
  refine ⟨slashed cs ++ ps, ?_, hhead', ?_, held_append h.slashed_byte hnew hold, ?_, ?_, ?_⟩
  · unfold lengthAfter
    rw [if_neg hhead, harray, chars_append h.ne_zero, chars_append hps, List.length_append,
      length_slashed]
    split <;> rfl
  · intro b hb
    rcases List.mem_append.mp hb with hb | hb
    · exact slashed_ne_zero h.ne_zero b hb
    · exact hps b hb
  · rw [List.length_append]
    exact hend
  · intro k hk
    rw [List.length_append, length_slashed] at hk
    rw [hold k (.inr (by rw [length_slashed]; exact hk))]
    split at hk
    · next hslash => rw [if_pos hslash]
    · next hslash => rw [if_neg hslash, Function.update_of_ne (by omega)]
  · intro dbuf
    rw [namePath_eq find _ _ _ _ _ hps, if_neg hps', names_slashed, walkNames_append, h.leads]
    rfl

/-- **What a successful call does.** -/
theorem Holding.writes (h : Holding find root cs w) {dbuf : ℕ → UInt8}
    (hch : chDir find enterable root w dbuf path = .ok (some w')) :
    ∃ cs', Writes find root w path cs' w'.uCurdir ∧
      walkNames find root (names cs') = some w'.uCdir := by
  unfold chDir at hch
  obtain ⟨r, hname, hch⟩ := Except.bind_eq_ok.mp hch
  cases r with
  | none => cases hch
  | some ino =>
    dsimp only at hch
    split at hch
    · obtain ⟨d', hset, hch⟩ := Except.bind_eq_ok.mp hch
      cases hch
      obtain ⟨cs', hwrites⟩ : ∃ cs', Writes find root w path cs' d' := by
        by_cases hhead : path.head? = some slash
        · exact setCurDir_absolute hhead hset
        · exact h.setCurDir_relative hhead hset
      exact ⟨cs', hwrites, Except.ok.inj ((hwrites.leads dbuf).symm.trans hname)⟩
    · cases hch

/-- A successful call whose path fits keeps a string in the array. -/
theorem Holding.step (h : Holding find root cs w) {dbuf : ℕ → UInt8}
    (hch : chDir find enterable root w dbuf path = .ok (some w')) (hfits : lengthAfter w path ≤ 511) :
    (∃ cs', Holding find root cs' w') ∧ ∀ k, 512 ≤ k → w'.uCurdir k = w.uCurdir k := by
  obtain ⟨cs', hwrites, hleads⟩ := h.writes hch
  have hle : cs'.length ≤ 511 := by
    rw [hwrites.length_eq]
    exact hfits
  exact ⟨⟨cs', hle, hwrites.head, hwrites.ne_zero, hwrites.byte_eq, hwrites.end_eq, hleads⟩,
    fun k hk => hwrites.beyond k (by omega)⟩

/-- A path that does not fit leaves no end in the array. -/
theorem Holding.overrun (h : Holding find root cs w) {dbuf : ℕ → UInt8}
    (hch : chDir find enterable root w dbuf path = .ok (some w')) (hlong : 511 < lengthAfter w path) :
    ∀ n < 512, w'.uCurdir n ≠ 0 := by
  intro n hn
  obtain ⟨cs', hwrites, -⟩ := h.writes hch
  have hlt : n < cs'.length := by
    rw [hwrites.length_eq]
    omega
  rw [hwrites.byte_eq n hlt, List.getD_eq_getElem?_getD, List.getElem?_eq_getElem hlt]
  exact hwrites.ne_zero _ (List.getElem_mem hlt)

/-- **A successful call keeps the string if and only if** the new one fits. -/
theorem Holding.describes_iff (h : Holding find root cs w) {dbuf : ℕ → UInt8}
    (hch : chDir find enterable root w dbuf path = .ok (some w')) :
    Describes find root w w' ↔ lengthAfter w path ≤ 511 := by
  constructor
  · intro hdescribes
    obtain ⟨n, hn, hend⟩ := hdescribes.terminated
    refine not_lt.mp fun hlong => ?_
    exact h.overrun hch hlong n hn hend
  · intro hfits
    obtain ⟨⟨cs', hcs'⟩, hkept⟩ := h.step hch hfits
    exact hcs'.describes hkept

/-- How `main` sets up the first process. -/
structure Started (root : ι) (w : Working ι) : Prop where
  slash_eq : w.uCurdir 0 = slash
  end_eq : w.uCurdir 1 = 0
  root_eq : w.uCdir = root

theorem Started.holding (h : Started root w) : Holding find root [slash] w := by
  refine ⟨by simp, rfl, ?_, ?_, h.end_eq, ?_⟩
  · intro b hb
    rw [List.mem_singleton.mp hb]
    decide
  · intro k hk
    rw [List.length_singleton, Nat.lt_one_iff] at hk
    rw [hk]
    exact h.slash_eq
  · rw [h.root_eq]
    rfl

/-- A successful call. -/
def ChDirs (find : ι → (ℕ → UInt8) → Option ι) (enterable : ι → Bool) (root : ι)
    (w w' : Working ι) : Prop :=
  ∃ dbuf path, chDir find enterable root w dbuf path = .ok (some w')

/-- A successful call whose path fits. -/
def FittingChDir (find : ι → (ℕ → UInt8) → Option ι) (enterable : ι → Bool) (root : ι)
    (w w' : Working ι) : Prop :=
  ∃ dbuf path, chDir find enterable root w dbuf path = .ok (some w') ∧ lengthAfter w path ≤ 511

/-- **In a run of successful calls whose paths fit** the string describes the current directory. -/
theorem curdir_run (hstart : Started root w₀)
    (hrun : Relation.ReflTransGen (FittingChDir find enterable root) w₀ w) :
    Describes find root w₀ w := by
  have hall : (∃ cs', Holding find root cs' w) ∧ ∀ k, 512 ≤ k → w.uCurdir k = w₀.uCurdir k := by
    induction hrun with
    | refl => exact ⟨⟨_, hstart.holding⟩, fun _ _ => rfl⟩
    | tail _ hstep ih =>
      obtain ⟨⟨cs', hcs'⟩, huntouched⟩ := ih
      obtain ⟨dbuf, path, hch, hfits⟩ := hstep
      obtain ⟨hnext, hkept⟩ := hcs'.step hch hfits
      exact ⟨hnext, fun k hk => (hkept k hk).trans (huntouched k hk)⟩
  obtain ⟨⟨cs', hcs'⟩, huntouched⟩ := hall
  exact hcs'.describes huntouched

/-- The first process, with nothing in the array behind the slash. -/
def atRoot : Working Unit := ⟨fun k => if k = 0 then slash else 0, ()⟩

/-- A path of slashes. -/
theorem names_slashes (n : ℕ) : names (List.replicate n slash) = [] := by
  induction n with
  | zero => rfl
  | succ n ih => rw [List.replicate_succ, names_slash, ih]

theorem stringCopy_chars (cs rest : List UInt8) (dst : ℕ → UInt8) (place : ℕ) :
    ∃ dst', stringCopy (cs ++ 0 :: rest) dst place = .ok dst' := by
  induction cs generalizing dst place with
  | nil => exact ⟨Function.update dst place 0, rfl⟩
  | cons c cs ih =>
    rw [List.cons_append, stringCopy]
    split
    · exact ⟨_, rfl⟩
    · exact ih _ _

/-- Such a path leads to the root. -/
theorem chDir_slashes (n : ℕ) : ∃ w', chDir (fun _ _ => none) (fun _ => true) () atRoot (fun _ => 0)
    (List.replicate (n + 1) slash ++ 0 :: []) = .ok (some w') := by
  have hzero : ∀ b ∈ List.replicate (n + 1) slash, b ≠ 0 := by
    intro b hb
    rw [List.eq_of_mem_replicate hb]
    decide
  obtain ⟨d', hcopy⟩ := stringCopy_chars (List.replicate (n + 1) slash) [] atRoot.uCurdir 0
  refine ⟨⟨d', ()⟩, ?_⟩
  unfold chDir setCurDir
  rw [namePath_eq _ _ _ _ _ _ hzero, names_slashes, Except.ok_bind]
  change (if (slash :: _).head? ≠ some slash then _ else _) >>= _ = _
  rw [if_neg (by simp), hcopy, Except.ok_bind]
  rfl

/-- One call whose path fits. -/
theorem curdir_run_slashes : ∃ w, ChDirs (fun _ _ => none) (fun _ => true) () atRoot w ∧
    Describes (fun _ _ => none) () atRoot w := by
  obtain ⟨w, hch⟩ := chDir_slashes 4
  exact ⟨w, ⟨_, _, hch⟩,
    curdir_run ⟨rfl, rfl, rfl⟩ (Relation.ReflTransGen.single ⟨_, _, hch, by decide⟩)⟩

/-- A path of 512 slashes fills the array, and its end is written behind it. -/
theorem not_describes : ¬ ∀ (ι : Type) (find : ι → (ℕ → UInt8) → Option ι) (enterable : ι → Bool)
    (root : ι) (w₀ w : Working ι), Started root w₀ →
    Relation.ReflTransGen (ChDirs find enterable root) w₀ w → Describes find root w₀ w := by
  intro h
  obtain ⟨w, hch⟩ := chDir_slashes 511
  have hstart : Started () atRoot := ⟨rfl, rfl, rfl⟩
  obtain ⟨n, hn, hend⟩ := (h Unit (fun _ _ => none) (fun _ => true) () atRoot w hstart
    (Relation.ReflTransGen.single ⟨_, _, hch⟩)).terminated
  refine hstart.holding.overrun hch ?_ n hn hend
  unfold lengthAfter
  rw [chars_append (fun b hb => by rw [List.eq_of_mem_replicate hb]; decide)]
  rw [if_pos (by rw [List.replicate_succ]; rfl), List.length_replicate]
  decide

end FileManager
end UnixV6pp
