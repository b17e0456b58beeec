import UnixV6pp.Dev.TTy
import Mathlib.Data.List.TakeWhile

/-!
# Writing to the terminal

`TTWrite` puts the characters of a buffer into the output queue and has `CRTStart` take them out.
The test for a full queue compares with `TTHIWAT`, which is as much as the queue never holds, so
that nothing is taken out before the end; and a byte from 128 on is a negative character, as is the
end of the buffer.

## Main definitions

* `ttyOutput`, `crtStart`, `ttWrite` — one character, the queue taken out, and the whole call.
* `Output`, `Produced` — what belongs to the output, in the states of a run.
* `Delivers` — what should come of a call.

## Main results

* `drain_eq` — what is taken out of a queue.
* `Produced.empty` — between two calls the queue is empty.
* `ttWrite_iff` — **the bytes are delivered** exactly where all are below 128 and they are no more
  than the queue holds.
-/

namespace UnixV6pp
namespace Tty

/-- `TTy::TTHIWAT`. -/
def TTHIWAT : ℕ := 512

/-! ### The functions -/

/-- `TTyOutput`; the call for `'\r'` puts it into the queue and does nothing else. -/
def ttyOutput (tFlags : UInt32) (q : TTyQueue) (ch : Int8) : TTyQueue :=
  if ch = CEOT ∧ tFlags &&& RAW = 0 then q
  else
    let q := if NEWLINE = ch ∧ tFlags &&& CRMOD ≠ 0 then q.putChar RETURN else q
    if ch ≠ 0 then q.putChar ch else q

/-- The loop of `CRTStart`: the characters that are taken out; each turn takes one, and the queue
has no more than its size. -/
def drain : ℕ → TTyQueue → List Int8 × TTyQueue
  | 0, q => ([], q)
  | fuel + 1, q =>
    let ch := q.getChar.1
    if ch = GET_ERROR then ([], q.getChar.2)
    else
      let r := drain fuel q.getChar.2
      (ch :: r.1, r.2)

/-- `CRTStart`, as far as the queue is concerned. -/
def crtStart (q : TTyQueue) : List Int8 × TTyQueue := drain TTY_BUF_SIZE q

/-- `u_IOParam`. -/
structure IOParam where
  mBase : ℕ
  mCount : ℤ

/-- `CPass`: the next byte, or the end. -/
def cPass (mem : ℕ → Int8) (u : IOParam) : Int8 × IOParam :=
  if u.mCount > 0 then (mem u.mBase, ⟨u.mBase + 1, u.mCount - 1⟩)
  else (-1, ⟨u.mBase + 1, u.mCount⟩)

/-- What a call leaves: what has been sent, `u_IOParam` and the queue. -/
structure Written where
  sent : List Int8
  u : IOParam
  tOutq : TTyQueue

/-- The loop of `TTWrite`, with a bound on the number of its turns. -/
def ttWriteLoop (mem : ℕ → Int8) (tFlags : UInt32) :
    ℕ → List Int8 → IOParam → TTyQueue → Option Written
  | 0, _, _, _ => none
  | fuel + 1, sent, u, q =>
    let ch := (cPass mem u).1
    if ch > 0 then
      let r := if q.charNum > TTHIWAT then crtStart q else ([], q)
      ttWriteLoop mem tFlags fuel (sent ++ r.1) (cPass mem u).2 (ttyOutput tFlags r.2 ch)
    else some ⟨sent, (cPass mem u).2, q⟩

/-- The members of `TTy` that the output uses. -/
structure Output where
  tOutq : TTyQueue
  tFlags : UInt32
  tState : UInt32

/-- `TTWrite`. -/
def ttWrite (fuel : ℕ) (mem : ℕ → Int8) (u : IOParam) (o : Output) : Option Written :=
  if o.tState &&& CARR_ON = 0 then some ⟨[], u, o.tOutq⟩
  else do
    let w ← ttWriteLoop mem o.tFlags fuel [] u o.tOutq
    let r := crtStart w.tOutq
    some ⟨w.sent ++ r.1, w.u, r.2⟩

/-! ### What is expected -/

/-- The states of the output between two calls: after `Open`, after a character has been echoed,
after a call of `TTWrite`, and with other flags. -/
inductive Produced : Output → Prop
  | opened (buf : ℕ → Int8) : Produced ⟨⟨0, 0, buf⟩, ECHO, ISOPEN ||| CARR_ON⟩
  | echo {o : Output} (ch : Int8) : Produced o →
    Produced { o with tOutq := (crtStart (ttyOutput o.tFlags o.tOutq ch)).2 }
  | write {o : Output} {fuel : ℕ} {mem : ℕ → Int8} {u : IOParam} {w : Written} : Produced o →
    ttWrite fuel mem u o = some w → Produced { o with tOutq := w.tOutq }
  | stty {o : Output} (tFlags : UInt32) : Produced o → Produced { o with tFlags := tFlags }

/-- The bytes of the buffer. -/
def bytes (mem : ℕ → Int8) (u : IOParam) : List Int8 :=
  (List.range u.mCount.toNat).map fun i => mem (u.mBase + i)

/-- A byte as it should be sent. -/
def shown (tFlags : UInt32) (ch : Int8) : List Int8 :=
  if ch = NEWLINE ∧ tFlags &&& CRMOD ≠ 0 then [RETURN, NEWLINE] else [ch]

/-- The call ends; everything is sent, in order, and nothing is left. -/
def Delivers (mem : ℕ → Int8) (u : IOParam) (o : Output) : Prop :=
  ∃ w, (∀ fuel > u.mCount.toNat, ttWrite fuel mem u o = some w) ∧
    w.sent = (bytes mem u).flatMap (shown o.tFlags) ∧ w.u.mCount = 0

/-! ### The queue -/

namespace TTyQueue

variable {q : TTyQueue}

/-- With the last free place taken the queue is empty. -/
theorem Ok.contents_putChar_full (h : q.Ok) (hfull : q.contents.length + 1 = TTY_BUF_SIZE)
    (ch : Int8) : (q.putChar ch).contents = [] := by
  rw [contents, length_ringList] at hfull
  exact ringList_put_full h.head_lt h.tail_lt hfull _

theorem length_contents_lt : q.contents.length < TTY_BUF_SIZE := by
  rw [contents, length_ringList]
  exact ringSize_lt (by decide)

/-- The test for a full queue never succeeds. -/
theorem Ok.charNum_le (h : q.Ok) : ¬ q.charNum > TTHIWAT := by
  have := @length_contents_lt q
  rw [h.charNum_eq]
  unfold TTHIWAT
  unfold TTY_BUF_SIZE at this
  omega

end TTyQueue

/-- The contents of a queue after one more character. -/
def putEnd (cs : List Int8) (ch : Int8) : List Int8 :=
  if cs.length + 1 < TTY_BUF_SIZE then cs ++ [ch] else []

theorem contents_putChar {q : TTyQueue} (h : q.Ok) (ch : Int8) :
    (q.putChar ch).contents = putEnd q.contents ch := by
  unfold putEnd
  split
  next hroom => exact h.contents_putChar hroom ch
  next hfull =>
    have := @TTyQueue.length_contents_lt q
    exact h.contents_putChar_full (by omega) ch

/-- Of what is put into a queue the last part is there, up to a multiple of the size. -/
theorem length_putEnd {cs : List Int8} (ch : Int8) (h : cs.length < TTY_BUF_SIZE) :
    (putEnd cs ch).length = (cs.length + 1) % TTY_BUF_SIZE := by
  unfold putEnd
  split
  next hroom => rw [List.length_append, List.length_singleton, Nat.mod_eq_of_lt hroom]
  next hfull =>
    have heq : cs.length + 1 = TTY_BUF_SIZE := by omega
    rw [heq, Nat.mod_self, List.length_nil]

theorem length_foldl_putEnd (l cs : List Int8) (h : cs.length < TTY_BUF_SIZE) :
    (l.foldl putEnd cs).length = (cs.length + l.length) % TTY_BUF_SIZE := by
  induction l generalizing cs with
  | nil => exact (Nat.mod_eq_of_lt h).symm
  | cons ch l ih =>
    have hlen := length_putEnd ch h
    rw [List.foldl_cons, ih _ (by rw [hlen]; exact Nat.mod_lt _ (by decide)), hlen,
      Nat.mod_add_mod, List.length_cons]
    congr 1
    omega

/-- What fits is there. -/
theorem foldl_putEnd (l cs : List Int8) (h : cs.length + l.length < TTY_BUF_SIZE) :
    l.foldl putEnd cs = cs ++ l := by
  induction l generalizing cs with
  | nil => exact (List.append_nil cs).symm
  | cons ch l ih =>
    rw [List.length_cons] at h
    rw [List.foldl_cons, putEnd, if_pos (by omega), ih _ (by simp; omega), List.append_assoc]
    rfl

theorem mem_foldl_putEnd {l cs : List Int8} {ch : Int8} (h : ch ∈ l.foldl putEnd cs) :
    ch ∈ cs ∨ ch ∈ l := by
  induction l generalizing cs with
  | nil => exact Or.inl h
  | cons c l ih =>
    rcases ih h with hcs | hl
    · unfold putEnd at hcs
      split at hcs
      next =>
        rcases List.mem_append.mp hcs with hcs | hc
        · exact Or.inl hcs
        · exact Or.inr (List.mem_singleton.mp hc ▸ List.mem_cons_self ..)
      next => exact absurd hcs List.not_mem_nil
    · exact Or.inr (List.mem_cons_of_mem _ hl)

/-- What is taken out of a queue: everything up to a character that looks like the end. -/
theorem drain_eq {fuel : ℕ} {q : TTyQueue} (h : q.Ok) (hfuel : q.contents.length < fuel) :
    (drain fuel q).1 = q.contents.takeWhile (· ≠ GET_ERROR) ∧
      (drain fuel q).2.contents = (q.contents.dropWhile (· ≠ GET_ERROR)).drop 1 ∧
      (drain fuel q).2.Ok := by
  induction fuel generalizing q with
  | zero => omega
  | succ fuel ih =>
    rw [drain]
    cases hq : q.contents with
    | nil =>
      rw [h.getChar_nil hq, if_pos rfl]
      exact ⟨rfl, hq, h⟩
    | cons ch cs =>
      obtain ⟨hch, hcs⟩ := h.getChar_cons hq
      rw [hch]
      dsimp only
      by_cases herr : ch = GET_ERROR
      · rw [if_pos herr, List.takeWhile_cons_of_neg (by simpa using herr),
          List.dropWhile_cons_of_neg (by simpa using herr)]
        exact ⟨rfl, hcs, h.getChar⟩
      · rw [hq, List.length_cons] at hfuel
        obtain ⟨htaken, hleft, hok⟩ := ih h.getChar (by rw [hcs]; omega)
        rw [if_neg herr, List.takeWhile_cons_of_pos (by simpa using herr),
          List.dropWhile_cons_of_pos (by simpa using herr)]
        rw [hcs] at htaken hleft
        exact ⟨congrArg (ch :: ·) htaken, hleft, hok⟩

/-- Without such a character everything is taken out. -/
theorem crtStart_eq {q : TTyQueue} (h : q.Ok) (hq : ∀ ch ∈ q.contents, ch ≠ GET_ERROR) :
    (crtStart q).1 = q.contents ∧ (crtStart q).2.contents = [] ∧ (crtStart q).2.Ok := by
  obtain ⟨htaken, hleft, hok⟩ := drain_eq h TTyQueue.length_contents_lt
  have hall : ∀ ch ∈ q.contents, decide (ch ≠ GET_ERROR) = true := fun ch hch => by
    simpa using hq ch hch
  refine ⟨?_, ?_, hok⟩
  · rw [crtStart, htaken]
    exact List.takeWhile_eq_self_iff.mpr hall
  · rw [crtStart, hleft, List.dropWhile_eq_nil_iff.mpr hall]
    rfl

/-! ### The states between two calls -/

/-- A character as it goes into the queue. -/
theorem ttyOutput_eq {q : TTyQueue} (h : q.Ok) (tFlags : UInt32) {ch : Int8} (h0 : ch ≠ 0)
    (hend : ch ≠ CEOT) : (ttyOutput tFlags q ch).Ok ∧
      (ttyOutput tFlags q ch).contents = (shown tFlags ch).foldl putEnd q.contents := by
  have hnot : ¬ (ch = CEOT ∧ tFlags &&& RAW = 0) := fun hc => hend hc.1
  rw [ttyOutput, if_neg hnot, shown]
  dsimp only
  rw [if_pos h0]
  by_cases hnl : ch = NEWLINE ∧ tFlags &&& CRMOD ≠ 0
  · have hreturn := h.putChar RETURN
    rw [if_pos ⟨hnl.1.symm, hnl.2⟩, if_pos hnl]
    refine ⟨hreturn.putChar ch, ?_⟩
    rw [contents_putChar hreturn, contents_putChar h, hnl.1]
    rfl
  · rw [if_neg fun hc => hnl ⟨hc.1.symm, hc.2⟩, if_neg hnl]
    exact ⟨h.putChar ch, contents_putChar h ch⟩

/-- The bytes from the first one on. -/
theorem bytes_cons {mem : ℕ → Int8} {u : IOParam} (h : 0 < u.mCount) :
    bytes mem u = mem u.mBase :: bytes mem ⟨u.mBase + 1, u.mCount - 1⟩ := by
  obtain ⟨n, hn⟩ : ∃ n, u.mCount.toNat = n + 1 := ⟨u.mCount.toNat - 1, by omega⟩
  have hn' : (u.mCount - 1).toNat = n := by omega
  unfold bytes
  rw [hn, hn', List.range_succ_eq_map, List.map_cons, List.map_map]
  congr 1
  refine List.map_congr_left fun i _ => ?_
  change mem (u.mBase + (i + 1)) = mem (u.mBase + 1 + i)
  rw [Nat.add_right_comm, Nat.add_assoc]

theorem bytes_nil {mem : ℕ → Int8} {u : IOParam} (h : ¬ 0 < u.mCount) : bytes mem u = [] := by
  have hzero : u.mCount.toNat = 0 := by omega
  rw [bytes, hzero]
  rfl

/-- The bytes before the first one that is no positive character. -/
def taken (mem : ℕ → Int8) (u : IOParam) : List Int8 := (bytes mem u).takeWhile (0 < ·)

/-- **The loop of `TTWrite`** puts the bytes up to the first negative one into the queue. -/
theorem ttWriteLoop_eq (mem : ℕ → Int8) (tFlags : UInt32) (sent : List Int8) {u : IOParam}
    {q : TTyQueue} (h : q.Ok) (hend : ∀ ch ∈ bytes mem u, ch ≠ CEOT) :
    ∃ w, (∀ fuel > u.mCount.toNat, ttWriteLoop mem tFlags fuel sent u q = some w) ∧
      w.sent = sent ∧ w.tOutq.Ok ∧
      w.tOutq.contents = ((taken mem u).flatMap (shown tFlags)).foldl putEnd q.contents ∧
      ((∀ ch ∈ bytes mem u, 0 < ch) → w.u.mCount = u.mCount - (bytes mem u).length) := by
  induction hn : u.mCount.toNat generalizing u q with
  | zero =>
    have hpos : ¬ 0 < u.mCount := by omega
    refine ⟨⟨sent, ⟨u.mBase + 1, u.mCount⟩, q⟩, fun fuel hfuel => ?_, rfl, h, ?_, ?_⟩
    · obtain ⟨k, rfl⟩ : ∃ k, fuel = k + 1 := ⟨fuel - 1, by omega⟩
      rw [ttWriteLoop, cPass, if_neg hpos]
      rfl
    · rw [taken, bytes_nil hpos]
      rfl
    · intro _
      rw [bytes_nil hpos]
      simp
  | succ n ih =>
    have hpos : 0 < u.mCount := by omega
    have hcons := @bytes_cons mem u hpos
    have hpass : cPass mem u = (mem u.mBase, ⟨u.mBase + 1, u.mCount - 1⟩) := if_pos hpos
    by_cases hch : 0 < mem u.mBase
    · have h0 : mem u.mBase ≠ 0 := fun h0 => absurd (h0 ▸ hch) (by decide)
      obtain ⟨hok, hcontents⟩ := ttyOutput_eq h tFlags h0
        (hend _ (hcons ▸ List.mem_cons_self ..))
      obtain ⟨w, hrun, hsent, hwok, hw, hcount⟩ := ih hok
        (fun ch hmem => hend ch (hcons ▸ List.mem_cons_of_mem _ hmem))
        (by change (u.mCount - 1).toNat = n; omega)
      refine ⟨w, fun fuel hfuel => ?_, hsent, hwok, ?_, fun hall => ?_⟩
      · obtain ⟨k, rfl⟩ : ∃ k, fuel = k + 1 := ⟨fuel - 1, by omega⟩
        rw [ttWriteLoop, hpass]
        dsimp only
        rw [if_pos hch, if_neg h.charNum_le, List.append_nil]
        exact hrun k (by omega)
      · have htaken : taken mem u = mem u.mBase :: taken mem ⟨u.mBase + 1, u.mCount - 1⟩ := by
          rw [taken, hcons, List.takeWhile_cons_of_pos (by simpa using hch)]
          rfl
        rw [hw, hcontents, htaken, List.flatMap_cons, List.foldl_append]
      · rw [hcount fun ch hmem => hall ch (hcons ▸ List.mem_cons_of_mem _ hmem), hcons,
          List.length_cons]
        push_cast
        omega
    · -- a negative byte looks like the end of the buffer
      refine ⟨⟨sent, ⟨u.mBase + 1, u.mCount - 1⟩, q⟩, fun fuel hfuel => ?_, rfl, h, ?_,
        fun hall => absurd (hall _ (hcons ▸ List.mem_cons_self ..)) hch⟩
      · obtain ⟨k, rfl⟩ : ∃ k, fuel = k + 1 := ⟨fuel - 1, by omega⟩
        rw [ttWriteLoop, hpass]
        dsimp only
        rw [if_neg hch]
      · rw [taken, hcons, List.takeWhile_cons_of_neg (by simpa using hch)]
        rfl

/-- A queue without a character that looks like the end. -/
def Clean (q : TTyQueue) : Prop := q.Ok ∧ ∀ ch ∈ q.contents, ch ≠ GET_ERROR

theorem Clean.putChar {q : TTyQueue} (h : Clean q) {ch : Int8} (hch : ch ≠ GET_ERROR) :
    Clean (q.putChar ch) := by
  refine ⟨h.1.putChar ch, fun c hc => ?_⟩
  rw [contents_putChar h.1] at hc
  rcases @mem_foldl_putEnd [ch] q.contents c hc with hold | hnew
  · exact h.2 c hold
  · exact List.mem_singleton.mp hnew ▸ hch

theorem Clean.ttyOutput {q : TTyQueue} (h : Clean q) (tFlags : UInt32) {ch : Int8}
    (hch : ch ≠ GET_ERROR) : Clean (ttyOutput tFlags q ch) := by
  have hreturn : Clean (q.putChar RETURN) := h.putChar (by decide)
  unfold Tty.ttyOutput
  split
  next => exact h
  next =>
    dsimp only
    split <;> split
    · exact hreturn.putChar hch
    · exact h.putChar hch
    · exact hreturn
    · exact h

/-- Whatever is written, the characters in the queue are positive. -/
theorem ttWriteLoop_clean {mem : ℕ → Int8} {tFlags : UInt32} {fuel : ℕ} {sent : List Int8}
    {u : IOParam} {q : TTyQueue} {w : Written} (h : Clean q)
    (hrun : ttWriteLoop mem tFlags fuel sent u q = some w) : Clean w.tOutq := by
  induction fuel generalizing sent u q with
  | zero => cases hrun
  | succ fuel ih =>
    rw [ttWriteLoop] at hrun
    dsimp only at hrun
    rw [if_neg h.1.charNum_le] at hrun
    split at hrun
    next hpos =>
      have hne : (cPass mem u).1 ≠ GET_ERROR := fun he => absurd (he ▸ hpos) (by decide)
      exact ih (h.ttyOutput tFlags hne) hrun
    next =>
      obtain rfl := Option.some.inj hrun
      exact h

/-- An empty queue is empty again when a character has been echoed. -/
theorem echo_empty {q : TTyQueue} (h : q.Ok) (hempty : q.contents = []) (tFlags : UInt32)
    (ch : Int8) : (crtStart (ttyOutput tFlags q ch)).2.Ok ∧
      (crtStart (ttyOutput tFlags q ch)).2.contents = [] := by
  by_cases herr : ch = GET_ERROR
  · -- the character stops the loop, but it has been taken out
    have hnot : ¬ (ch = CEOT ∧ tFlags &&& RAW = 0) := fun hc => absurd (herr ▸ hc.1) (by decide)
    have hnl : ¬ (NEWLINE = ch ∧ tFlags &&& CRMOD ≠ 0) := fun hc => absurd (herr ▸ hc.1) (by decide)
    have hput : ttyOutput tFlags q ch = q.putChar ch := by
      rw [ttyOutput, if_neg hnot, if_neg hnl, if_pos (herr ▸ by decide)]
    have hok := h.putChar ch
    obtain ⟨-, hleft, hok'⟩ := drain_eq hok TTyQueue.length_contents_lt
    rw [contents_putChar h, hempty, herr] at hleft
    rw [hput, crtStart, herr]
    rw [herr] at hok'
    exact ⟨hok', hleft⟩
  · have hclean : Clean q := ⟨h, fun c hc => absurd (hempty ▸ hc) List.not_mem_nil⟩
    obtain ⟨hok, hall⟩ := hclean.ttyOutput tFlags herr
    obtain ⟨-, hleft, hok'⟩ := crtStart_eq hok hall
    exact ⟨hok', hleft⟩

/-- **Between two calls the queue is empty**, and the terminal is open. -/
theorem Produced.empty {o : Output} (h : Produced o) :
    o.tOutq.Ok ∧ o.tOutq.contents = [] ∧ o.tState &&& CARR_ON ≠ 0 := by
  induction h with
  | opened buf =>
    have hlt : 0 < TTY_BUF_SIZE := by decide
    have hon : (ISOPEN ||| CARR_ON) &&& CARR_ON ≠ 0 := by decide
    exact ⟨⟨hlt, hlt⟩, (ringList_eq_nil hlt hlt buf).mpr rfl, hon⟩
  | @echo o ch _ ih =>
    obtain ⟨hok, hempty⟩ := echo_empty ih.1 ih.2.1 o.tFlags ch
    exact ⟨hok, hempty, ih.2.2⟩
  | @write o fuel mem u w _ hrun ih =>
    obtain ⟨hok, hempty, hon⟩ := ih
    rw [ttWrite, if_neg hon] at hrun
    cases hloop : ttWriteLoop mem o.tFlags fuel [] u o.tOutq with
    | none =>
      rw [hloop] at hrun
      cases hrun
    | some w' =>
      rw [hloop] at hrun
      obtain rfl := Option.some.inj hrun
      have hclean : Clean o.tOutq := ⟨hok, fun c hc => absurd (hempty ▸ hc) List.not_mem_nil⟩
      obtain ⟨hok', hall⟩ := ttWriteLoop_clean hclean hloop
      obtain ⟨-, hleft, hok''⟩ := crtStart_eq hok' hall
      exact ⟨hok'', hleft, hon⟩
  | stty _ _ ih => exact ih

/-! ### Delivery -/

theorem one_le_length_shown (tFlags : UInt32) (ch : Int8) : 1 ≤ (shown tFlags ch).length := by
  unfold shown
  split <;> simp

/-- Where a byte is not taken, less is sent. -/
theorem length_taken_lt {mem : ℕ → Int8} {u : IOParam} (tFlags : UInt32)
    (h : ¬ ∀ ch ∈ bytes mem u, 0 < ch) :
    ((taken mem u).flatMap (shown tFlags)).length <
      ((bytes mem u).flatMap (shown tFlags)).length := by
  have hsplit : bytes mem u = taken mem u ++ (bytes mem u).dropWhile (0 < ·) :=
    (List.takeWhile_append_dropWhile).symm
  cases hrest : (bytes mem u).dropWhile (0 < ·) with
  | nil =>
    refine absurd (fun ch hch => ?_) h
    simpa using List.dropWhile_eq_nil_iff.mp hrest ch hch
  | cons ch rest =>
    have hone := one_le_length_shown tFlags ch
    rw [hrest] at hsplit
    rw [hsplit, List.flatMap_append, List.flatMap_cons, List.length_append, List.length_append]
    omega

/-- **The bytes are delivered** exactly where all are below 128 and they are no more than the queue
holds. -/
theorem ttWrite_iff {o : Output} (ho : Produced o) (mem : ℕ → Int8) (u : IOParam)
    (hbytes : ∀ ch ∈ bytes mem u, ch ≠ 0 ∧ ch ≠ CEOT) :
    Delivers mem u o ↔ 0 ≤ u.mCount ∧ (∀ ch ∈ bytes mem u, 0 < ch) ∧
      ((bytes mem u).flatMap (shown o.tFlags)).length < TTY_BUF_SIZE := by
  obtain ⟨hok, hempty, hon⟩ := ho.empty
  obtain ⟨w, hrun, hsent, hwok, hw, hcount⟩ := ttWriteLoop_eq mem o.tFlags [] hok
    fun ch hch => (hbytes ch hch).2
  have hwclean : Clean w.tOutq :=
    ttWriteLoop_clean ⟨hok, fun c hc => absurd (hempty ▸ hc) List.not_mem_nil⟩
      (hrun (u.mCount.toNat + 1) (Nat.lt_succ_self _))
  have hstart := (crtStart_eq hwclean.1 hwclean.2).1
  have hcall : ∀ fuel > u.mCount.toNat, ttWrite fuel mem u o =
      some ⟨w.tOutq.contents, w.u, (crtStart w.tOutq).2⟩ := by
    intro fuel hfuel
    rw [ttWrite, if_neg hon, hrun fuel hfuel, Option.bind_eq_bind, Option.bind_some]
    dsimp only
    rw [hsent, hstart, List.nil_append]
  have hlen : w.tOutq.contents.length =
      ((taken mem u).flatMap (shown o.tFlags)).length % TTY_BUF_SIZE := by
    rw [hw, hempty, length_foldl_putEnd _ _ (by decide), List.length_nil, Nat.zero_add]
  constructor
  · rintro ⟨w', hrun', hsent', hcount'⟩
    obtain rfl := Option.some.inj
      ((hcall _ (Nat.lt_succ_self _)).symm.trans (hrun' _ (Nat.lt_succ_self _)))
    dsimp only at hsent' hcount'
    rw [hsent'] at hlen
    have hmod := Nat.mod_le ((taken mem u).flatMap (shown o.tFlags)).length TTY_BUF_SIZE
    have hall : ∀ ch ∈ bytes mem u, 0 < ch := by
      by_contra hnot
      have := length_taken_lt o.tFlags hnot
      omega
    refine ⟨?_, hall, ?_⟩
    · rw [hcount hall] at hcount'
      omega
    · rw [hlen]
      exact Nat.mod_lt _ (by decide)
  · rintro ⟨hpos, hall, hfit⟩
    have htaken : taken mem u = bytes mem u :=
      List.takeWhile_eq_self_iff.mpr fun ch hch => by simpa using hall ch hch
    refine ⟨_, hcall, ?_, ?_⟩
    · change w.tOutq.contents = _
      rw [hw, hempty, htaken, foldl_putEnd _ _ (by simpa using hfit), List.nil_append]
    · change w.u.mCount = 0
      rw [hcount hall, bytes, List.length_map, List.length_range]
      omega

/-- The terminal after `Open`. -/
def openedOutput : Output := ⟨⟨0, 0, fun _ => 0⟩, ECHO, ISOPEN ||| CARR_ON⟩

/-- The characters `ok`. -/
theorem ttWrite_iff_ok :
    Delivers (fun i => [111, 107].getD i 0) ⟨0, 2⟩ openedOutput := by
  have hbytes : bytes (fun i => [111, 107].getD i 0) ⟨0, 2⟩ = [111, 107] := rfl
  refine (ttWrite_iff (.opened _) _ _ ?_).mpr ⟨by decide, ?_, by decide⟩
  · rw [hbytes]
    simp [CEOT]
  · rw [hbytes]
    simp

/-- The byte 195, as in an accented letter, is not sent. -/
theorem exists_undelivered : ∃ (o : Output) (mem : ℕ → Int8) (u : IOParam), Produced o ∧
    (∀ ch ∈ bytes mem u, ch ≠ 0 ∧ ch ≠ CEOT) ∧ ¬ Delivers mem u o := by
  refine ⟨openedOutput, fun _ => -61, ⟨0, 1⟩, .opened _, by simp [bytes, CEOT], ?_⟩
  rintro ⟨w, hrun, hsent, -⟩
  have hnone : ttWrite 2 (fun _ => -61) ⟨0, 1⟩ openedOutput =
      some ⟨[], ⟨1, 0⟩, ⟨0, 0, fun _ => 0⟩⟩ := rfl
  have heq := (hrun 2 (by decide)).symm.trans hnone
  rw [Option.some.inj heq] at hsent
  exact absurd hsent (by decide)

end Tty
end UnixV6pp
