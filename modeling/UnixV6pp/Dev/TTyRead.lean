import UnixV6pp.Dev.TTy

/-!
# What is typed is read

## Main definitions

* `Ordinary` — the characters `Canon` does not interpret.
* `Event.Fits` — a key finds room for itself and its delimiter in the raw queue, and a read that
  passes characters on wants all that the canonical queue has.
* `Inv` — the invariant.

## Main results

* `ttRead_run` — **in such runs every byte typed has been returned or is pending, in order.**
* `not_returned` — a read shorter than the line, and too many lines.
-/

namespace UnixV6pp
namespace Tty

/-- Not erase, kill, backslash, end of file or the delimiter. -/
structure Ordinary (ch : Int8) : Prop where
  nonneg : ¬ch < 0
  ne_erase : ch ≠ CERASE
  ne_kill : ch ≠ CKILL
  ne_escape : ch ≠ ESCAPE
  ne_eot : ch ≠ CEOT
  ne_delim : ch ≠ DELIM

theorem Ordinary.of_test {ch : Int8} (h : ¬ch < 0 ∧ ch ≠ CERASE ∧ ch ≠ CKILL ∧ ch ≠ ESCAPE ∧
    ch ≠ CEOT ∧ ch ≠ DELIM) : Ordinary ch :=
  ⟨h.1, h.2.1, h.2.2.1, h.2.2.2.1, h.2.2.2.2.1, h.2.2.2.2.2⟩

/-- What a character takes in the raw queue. -/
def places (ch : Int8) : ℕ := if ch = NEWLINE then 2 else 1

namespace Event

/-- Only ordinary characters are typed. -/
def Plain : Event → Prop
  | key ch => Ordinary ch
  | _ => True

/-- The raw queue has room, and a read that passes characters on wants all of them. -/
def Fits (s : State) : Event → Prop
  | key ch => s.tty.tRawq.charNum + places ch < TTY_BUF_SIZE
  | read _ => True
  | step => s.stage = .pass → s.tty.tCanq.charNum ≤ s.mCount

end Event

namespace State

/-- What the canonical queue and the work buffer are like at every stage. -/
def At (s : State) : Prop :=
  match s.stage with
  | .idle | .wait => s.tty.tCanq.contents = []
  | .cook pChar => s.tty.tCanq.contents = [] ∧ 2 ≤ pChar ∧ pChar < CANBSIZ
  | .store pChar pEnd =>
    s.tty.tCanq.contents.length + 2 = pChar ∧ pChar ≤ pEnd ∧ pEnd ≤ CANBSIZ
  | .pass => True

end State

structure Inv (s : State) : Prop where
  flags : s.tty.tFlags = ECHO
  erase : s.tty.tErase = CERASE
  kill : s.tty.tKill = CKILL
  rawOk : s.tty.tRawq.Ok
  canOk : s.tty.tCanq.Ok
  plain : ∀ ch ∈ s.tty.tRawq.contents, ch = DELIM ∨ Ordinary ch
  stage : s.At
  typed : s.returned ++ s.pending = s.typed

namespace Inv

variable {s : State}

theorem opened : Inv opened where
  flags := rfl
  erase := rfl
  kill := rfl
  rawOk := ⟨by decide, by decide⟩
  canOk := ⟨by decide, by decide⟩
  plain := nofun
  stage := rfl
  typed := rfl

/-! ### The keyboard -/

/-- A key puts itself, and perhaps a delimiter, into the raw queue. -/
theorem ttyInput_eq (h : Inv s) {ch : Int8} (hch : Ordinary ch) :
    s.tty.ttyInput ch = { s.tty with
      tRawq := if ch = NEWLINE then (s.tty.tRawq.putChar ch).putChar DELIM
        else s.tty.tRawq.putChar ch
      tDelct := if ch = NEWLINE then s.tty.tDelct + 1 else s.tty.tDelct } := by
  have hcrmod : ¬(ch = RETURN ∧ s.tty.tFlags &&& CRMOD ≠ 0) := by
    rw [h.flags]
    exact fun hr => hr.2 (by decide)
  have hlcase : ¬(s.tty.tFlags &&& LCASE ≠ 0 ∧ 65 ≤ ch ∧ ch ≤ 90) := by
    rw [h.flags]
    exact fun hl => hl.1 (by decide)
  have hraw : ¬s.tty.tFlags &&& RAW ≠ 0 := by
    rw [h.flags]
    decide
  simp only [TTy.ttyInput, if_neg hcrmod, if_neg hlcase]
  by_cases hnl : ch = NEWLINE
  · simp [hnl]
  · simp [hnl, hraw, hch.ne_eot]

/-- The raw queue after a key. -/
theorem rawq_key (h : Inv s) {ch : Int8} (hch : Ordinary ch)
    (hroom : s.tty.tRawq.charNum + places ch < TTY_BUF_SIZE) :
    (s.tty.ttyInput ch).tRawq.Ok ∧ (s.tty.ttyInput ch).tRawq.contents =
      s.tty.tRawq.contents ++ if ch = NEWLINE then [ch, DELIM] else [ch] := by
  rw [h.rawOk.charNum_eq, places] at hroom
  rw [h.ttyInput_eq hch]
  have hput := h.rawOk.contents_putChar (by split at hroom <;> omega) ch
  by_cases hnl : ch = NEWLINE
  · simp only [hnl, if_true] at hroom hput ⊢
    refine ⟨(h.rawOk.putChar _).putChar _, ?_⟩
    rw [(h.rawOk.putChar _).contents_putChar _ DELIM, hput, List.append_assoc]
    · rfl
    · rw [hput, List.length_append, List.length_singleton]
      omega
  · simp only [hnl, if_false]
    exact ⟨h.rawOk.putChar _, hput⟩

theorem key (h : Inv s) {ch : Int8} (hch : Ordinary ch)
    (hroom : s.tty.tRawq.charNum + places ch < TTY_BUF_SIZE) : Inv (s.ttyInput ch) := by
  rcases h.rawq_key hch hroom with ⟨hok, hraw⟩
  have hfields := h.ttyInput_eq hch
  have hcan : (s.tty.ttyInput ch).tCanq = s.tty.tCanq := by rw [hfields]
  have hcanonb : (s.tty.ttyInput ch).canonb = s.tty.canonb := by rw [hfields]
  have hwork : (s.ttyInput ch).work = s.work := by
    simp only [State.work, State.ttyInput, hcanonb]
  refine ⟨?_, ?_, ?_, hok, ?_, ?_, ?_, ?_⟩
  · exact (congrArg TTy.tFlags hfields).trans h.flags
  · exact (congrArg TTy.tErase hfields).trans h.erase
  · exact (congrArg TTy.tKill hfields).trans h.kill
  · change (s.tty.ttyInput ch).tCanq.Ok
    rw [hcan]
    exact h.canOk
  · intro c hc
    change c ∈ (s.tty.ttyInput ch).tRawq.contents at hc
    rw [hraw, List.mem_append] at hc
    rcases hc with hc | hc
    · exact h.plain c hc
    · split at hc <;> simp only [List.mem_cons, List.not_mem_nil, or_false] at hc
      · rcases hc with rfl | rfl
        exacts [.inr hch, .inl rfl]
      · exact .inr (hc ▸ hch)
  · have hstage := h.stage
    simp only [State.At, State.ttyInput, hcan] at hstage ⊢
    exact hstage
  · -- the delimiter is not counted
    have hfilter : (if ch = NEWLINE then [ch, DELIM] else [ch]).filter (· ≠ DELIM) = [ch] := by
      split <;> simp [hch.ne_delim]
    rw [State.pending, hwork]
    change s.returned ++ ((s.tty.ttyInput ch).tCanq.contents ++ (s.work ++
      (s.tty.ttyInput ch).tRawq.contents.filter (· ≠ DELIM))) = s.typed ++ [ch]
    rw [hcan, hraw, List.filter_append, hfilter, ← h.typed, State.pending]
    simp only [List.append_assoc]

/-! ### The read -/

theorem read (h : Inv s) (hidle : s.stage = .idle) (count : ℤ) : Inv (s.ttRead count) := by
  have hcan : s.tty.tCanq.contents = [] := by
    have hstage := h.stage
    simp only [State.At, hidle] at hstage
    exact hstage
  have hnum : ¬s.tty.tCanq.charNum ≠ 0 := by rw [h.canOk.charNum_eq, hcan]; simp
  have htyped := h.typed
  simp only [State.pending, State.work, hidle] at htyped
  unfold State.ttRead
  rw [if_neg hnum]
  split
  · exact h
  · exact ⟨h.flags, h.erase, h.kill, h.rawOk, h.canOk, h.plain, hcan, htyped⟩

theorem canonTest (h : Inv s) (hstage : s.stage = .wait) : Inv s.canonTest := by
  have hcan := h.stage
  simp only [State.At, hstage] at hcan
  have htyped := h.typed
  simp only [State.pending, State.work, hstage] at htyped
  unfold State.canonTest
  split
  · split
    · exact ⟨h.flags, h.erase, h.kill, h.rawOk, h.canOk, h.plain, hcan, htyped⟩
    · exact h
  · exact ⟨h.flags, h.erase, h.kill, h.rawOk, h.canOk, h.plain, ⟨hcan, by decide, by decide⟩,
      htyped⟩

/-- What `Canon` does with the characters it can meet. -/
theorem canonGet_cons (h : Inv s) {pChar : ℕ} {ch : Int8} {cs : List Int8}
    (hraw : s.tty.tRawq.contents = ch :: cs) :
    s.canonGet pChar =
      if ch = DELIM then { s with
        tty := { s.tty with tRawq := s.tty.tRawq.getChar.2, tDelct := s.tty.tDelct - 1 }
        stage := .store 2 pChar }
      else s.canonPut { s.tty with tRawq := s.tty.tRawq.getChar.2 } pChar ch := by
  unfold State.canonGet
  rw [(h.rawOk.getChar_cons hraw).1]
  rcases h.plain ch (hraw ▸ List.mem_cons_self) with rfl | hch
  · simp only [if_true]
    rw [if_neg (by decide)]
  · simp only [if_neg hch.nonneg, if_neg hch.ne_delim, h.erase, h.kill, if_neg hch.ne_erase,
      if_neg hch.ne_kill, if_neg hch.ne_eot, ite_self]

/-- Another character in the work buffer. -/
theorem map_update {f : ℕ → Int8} {pChar : ℕ} (h : 2 ≤ pChar) (ch : Int8) :
    (List.range' 2 (pChar + 1 - 2)).map (Function.update f pChar ch) =
      (List.range' 2 (pChar - 2)).map f ++ [ch] := by
  rw [show pChar + 1 - 2 = pChar - 2 + 1 by omega, List.range'_concat, List.map_append]
  congr 1
  · refine List.map_congr_left fun i hi => Function.update_of_ne ?_ ..
    rw [List.mem_range'_1] at hi
    omega
  · rw [List.map_singleton, show 2 + 1 * (pChar - 2) = pChar by omega, Function.update_self]

theorem canonPut (h : Inv s) {pChar : ℕ} (hstage : s.stage = .cook pChar) {ch : Int8}
    {cs : List Int8} (hraw : s.tty.tRawq.contents = ch :: cs) (hch : ch ≠ DELIM) :
    Inv (s.canonPut { s.tty with tRawq := s.tty.tRawq.getChar.2 } pChar ch) := by
  have hat := h.stage
  simp only [State.At, hstage] at hat
  rcases hat with ⟨hcan, hp, hlt⟩
  have hcs := (h.rawOk.getChar_cons hraw).2
  have htyped := h.typed
  simp only [State.pending, State.work, hstage, hcan, hraw, List.nil_append,
    List.filter_cons, decide_eq_true hch, if_true] at htyped
  have hmap := map_update (f := s.tty.canonb) hp ch
  refine ⟨h.flags, h.erase, h.kill, h.rawOk.getChar, h.canOk, ?_, ?_, ?_⟩
  · intro c hc
    change c ∈ s.tty.tRawq.getChar.2.contents at hc
    rw [hcs] at hc
    exact h.plain c (hraw ▸ List.mem_cons_of_mem _ hc)
  · unfold State.canonPut State.At
    by_cases hfull : pChar + 1 ≥ CANBSIZ
    · simp only [if_pos hfull]
      exact ⟨by rw [hcan]; rfl, by omega, hlt⟩
    · simp only [if_neg hfull]
      exact ⟨hcan, by omega, by omega⟩
  · have hwork : (s.canonPut { s.tty with tRawq := s.tty.tRawq.getChar.2 } pChar ch).work =
        (List.range' 2 (pChar - 2)).map s.tty.canonb ++ [ch] := by
      unfold State.canonPut State.work
      by_cases hfull : pChar + 1 ≥ CANBSIZ
      · simp only [if_pos hfull]
        exact hmap
      · simp only [if_neg hfull]
        exact hmap
    rw [State.pending, hwork]
    change s.returned ++ (s.tty.tCanq.contents ++ (_ ++
      s.tty.tRawq.getChar.2.contents.filter (· ≠ DELIM))) = s.typed
    rw [hcan, hcs, ← htyped, List.append_assoc]
    rfl

theorem canonGet (h : Inv s) {pChar : ℕ} (hstage : s.stage = .cook pChar) :
    Inv (s.canonGet pChar) := by
  have hat := h.stage
  simp only [State.At, hstage] at hat
  rcases hat with ⟨hcan, hp, hlt⟩
  have hstore : s.tty.tCanq.contents.length + 2 = 2 ∧ 2 ≤ pChar ∧ pChar ≤ CANBSIZ :=
    ⟨by rw [hcan]; rfl, hp, Nat.le_of_lt hlt⟩
  have htyped := h.typed
  simp only [State.pending, State.work, hstage] at htyped
  rcases hraw : s.tty.tRawq.contents with _ | ⟨ch, cs⟩
  · -- the raw queue is empty
    unfold State.canonGet
    rw [h.rawOk.getChar_nil hraw]
    simp only [show GET_ERROR < 0 by decide, if_true]
    exact ⟨h.flags, h.erase, h.kill, h.rawOk, h.canOk, h.plain, hstore, htyped⟩
  · rw [h.canonGet_cons hraw]
    by_cases hch : ch = DELIM
    · rw [if_pos hch]
      have hcs := (h.rawOk.getChar_cons hraw).2
      rw [hraw, List.filter_cons, hch] at htyped
      simp only [ne_eq, not_true_eq_false, decide_false, Bool.false_eq_true, if_false] at htyped
      refine ⟨h.flags, h.erase, h.kill, h.rawOk.getChar, h.canOk, ?_, hstore, ?_⟩
      · intro c hc
        change c ∈ s.tty.tRawq.getChar.2.contents at hc
        rw [hcs] at hc
        exact h.plain c (hraw ▸ List.mem_cons_of_mem _ hc)
      · change s.returned ++ (s.tty.tCanq.contents ++ (_ ++
          s.tty.tRawq.getChar.2.contents.filter (· ≠ DELIM))) = s.typed
        rw [hcs]
        exact htyped
    · rw [if_neg hch]
      exact h.canonPut hstage hraw hch

theorem canonStore (h : Inv s) {pChar pEnd : ℕ} (hstage : s.stage = .store pChar pEnd) :
    Inv (s.canonStore pChar pEnd) := by
  have hat := h.stage
  simp only [State.At, hstage] at hat
  rcases hat with ⟨hlen, hle, hend⟩
  have htyped := h.typed
  simp only [State.pending, State.work, hstage] at htyped
  unfold State.canonStore
  by_cases hlt : pChar < pEnd
  · rw [if_pos hlt]
    have hput := h.canOk.contents_putChar
      (by have : CANBSIZ < TTY_BUF_SIZE := by decide
          omega) (s.tty.canonb pChar)
    refine ⟨h.flags, h.erase, h.kill, h.rawOk, h.canOk.putChar _, h.plain, ?_, ?_⟩
    · simp only [State.At, hput, List.length_append, List.length_singleton]
      omega
    · simp only [State.pending, State.work, hput]
      rw [show pEnd - pChar = pEnd - (pChar + 1) + 1 by omega, List.range'_succ,
        List.map_cons] at htyped
      rw [← htyped]
      simp only [List.append_assoc, List.cons_append, List.nil_append]
  · rw [if_neg hlt]
    rw [show pEnd - pChar = 0 by omega] at htyped
    exact ⟨h.flags, h.erase, h.kill, h.rawOk, h.canOk, h.plain, trivial, htyped⟩

theorem ttReadLoop (h : Inv s) (hstage : s.stage = .pass)
    (hfits : s.tty.tCanq.charNum ≤ s.mCount) : Inv s.ttReadLoop := by
  have htyped := h.typed
  simp only [State.pending, State.work, hstage] at htyped
  unfold State.ttReadLoop
  rw [h.canOk.charNum_eq] at hfits ⊢
  rcases hcan : s.tty.tCanq.contents with _ | ⟨ch, cs⟩
  · simp only [List.length_nil, ne_eq, not_true_eq_false, if_false]
    exact ⟨h.flags, h.erase, h.kill, h.rawOk, h.canOk, h.plain, hcan, htyped⟩
  · have hpos : s.mCount > 0 := by
      rw [hcan, List.length_cons] at hfits
      omega
    rcases h.canOk.getChar_cons hcan with ⟨hget, hcs⟩
    simp only [List.length_cons, if_pos (Nat.succ_ne_zero cs.length), State.passC, if_pos hpos,
      if_true]
    refine ⟨h.flags, h.erase, h.kill, h.rawOk, h.canOk.getChar, h.plain, ?_, ?_⟩
    · simp only [State.At, hstage]
    · simp only [State.pending, State.work, hstage]
      rw [hget, hcs, ← htyped, hcan]
      simp only [List.append_assoc, List.cons_append, List.nil_append]

theorem advance (h : Inv s) (hfits : Event.step.Fits s) : Inv s.advance := by
  unfold State.advance
  rcases hstage : s.stage with _ | _ | pChar | ⟨pChar, pEnd⟩ | _
  · exact h
  · exact h.canonTest hstage
  · exact h.canonGet hstage
  · exact h.canonStore hstage
  · exact h.ttReadLoop hstage (hfits hstage)

/-- **One event.** -/
theorem step (h : Inv s) {e : Event} {s' : State} (hplain : e.Plain) (hfits : e.Fits s)
    (hstep : Step s e s') : Inv s' := by
  rcases hstep with ⟨henabled, rfl⟩
  rcases e with ch | count | _
  · exact h.key hplain hfits
  · exact h.read henabled count
  · exact h.advance hfits

end Inv

/-- **Nothing is lost, doubled or out of order**: what the reads have returned and what is
pending make up what has been typed. -/
theorem ttRead_run {s : State}
    (hrun : Runs Step (fun s e => e.Plain ∧ e.Fits s) opened s) :
    s.returned <+: s.typed ∧ s.returned ++ s.pending = s.typed := by
  have hinv : Inv s :=
    hrun.invariant (fun _ _ _ h hok hstep => h.step hok.1 hok.2 hstep) Inv.opened
  exact ⟨⟨s.pending, hinv.typed⟩, hinv.typed⟩

/-! ### Runs of the terminal -/

/-- The events in order. -/
def play : List Event → State → State
  | [], s => s
  | e :: es, s => play es (e.next s)

/-- All of them meet the condition. -/
def Allowed (ok : State → Event → Prop) : List Event → State → Prop
  | [], _ => True
  | e :: es, s => (e.Enabled s ∧ ok s e) ∧ Allowed ok es (e.next s)

theorem runs_play {ok : State → Event → Prop} {es : List Event} {s : State}
    (h : Allowed ok es s) : Runs Step ok s (play es s) := by
  induction es generalizing s with
  | nil => exact .refl s
  | cons e es ih => exact (Runs.single h.1.2 ⟨h.1.1, rfl⟩).trans (ih h.2)

section Decide

instance (ch : Int8) : Decidable (Ordinary ch) :=
  decidable_of_iff _ ⟨Ordinary.of_test, fun h =>
    ⟨h.nonneg, h.ne_erase, h.ne_kill, h.ne_escape, h.ne_eot, h.ne_delim⟩⟩

instance (e : Event) : Decidable e.Plain :=
  match e with
  | .key ch => inferInstanceAs (Decidable (Ordinary ch))
  | .read _ | .step => .isTrue trivial

instance (s : State) (e : Event) : Decidable (e.Fits s) :=
  match e with
  | .key ch => inferInstanceAs (Decidable (s.tty.tRawq.charNum + places ch < TTY_BUF_SIZE))
  | .read _ => .isTrue trivial
  | .step => inferInstanceAs (Decidable (s.stage = .pass → s.tty.tCanq.charNum ≤ s.mCount))

instance (s : State) (e : Event) : Decidable (e.Enabled s) :=
  match e with
  | .read _ => inferInstanceAs (Decidable (s.stage = .idle))
  | .key _ | .step => .isTrue trivial

instance (ok : State → Event → Prop) [∀ s e, Decidable (ok s e)] :
    ∀ es s, Decidable (Allowed ok es s)
  | [], _ => .isTrue trivial
  | e :: es, s =>
    have := instDecidableAllowed ok es (e.next s)
    inferInstanceAs (Decidable ((e.Enabled s ∧ ok s e) ∧ Allowed ok es (e.next s)))

end Decide

/-- A line of two characters, and a read of all of it. -/
def oneLine : List Event :=
  [.key 97, .key 98, .key NEWLINE, .read 10] ++ List.replicate 13 .step

theorem ttRead_run_oneLine :
    (play oneLine opened).returned <+: (play oneLine opened).typed ∧
      (play oneLine opened).returned ++ (play oneLine opened).pending =
        (play oneLine opened).typed :=
  ttRead_run (runs_play (by decide +kernel))

/-- Keys are ordinary, and fewer than 500 characters are pending. -/
def Few (s : State) (e : Event) : Prop := e.Plain ∧ s.typed.length < s.returned.length + 500

instance (s : State) (e : Event) : Decidable (Few s e) := by unfold Few; infer_instance

/-- The same line, with a read of one character first. -/
def shortRead : List Event :=
  [.key 97, .key 98, .key NEWLINE, .read 1] ++ (List.replicate 11 .step ++
    (.read 10 :: List.replicate 3 .step))

/-- Empty lines take all places but one, and the last of them this one. -/
def manyLines : List Event :=
  [.key 97, .key 98] ++ (List.replicate 255 (.key NEWLINE) ++
    ([.key 99, .key NEWLINE, .read 10] ++ List.replicate 10 .step))

/-- The second character of the line is lost; the first 257 characters are. -/
theorem not_returned :
    (Runs Step Few opened (play shortRead opened) ∧
      (play shortRead opened).returned = [97, NEWLINE] ∧
      (play shortRead opened).typed = [97, 98, NEWLINE]) ∧
    (Runs Step Few opened (play manyLines opened) ∧
      (play manyLines opened).returned = [99, NEWLINE] ∧
      ¬(play manyLines opened).returned <+: (play manyLines opened).typed) :=
  ⟨⟨runs_play (by decide +kernel), by decide +kernel⟩,
    runs_play (by decide +kernel), by decide +kernel⟩

end Tty
end UnixV6pp
