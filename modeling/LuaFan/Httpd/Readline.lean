/-
# Reading a line (`modules/fan/stream/init.lua`, `readline`)

`readline` takes bytes off a stream one by one up to a line end: a CR, a LF, or a
CR that is directly followed by a LF.  Without a line end it goes back to where it
started.

`splitLine` says what that is in terms of the unread bytes (`readline_reads`), and
`splitLine_append` how it depends on what arrives later: a line that was complete
stays the same, unless it ended in a CR and a LF follows.
-/
import LuaFan.Connector.Tcp

namespace LuaFan

open Fifo

/-- Carriage return and line feed. -/
def cr : UInt8 := 13

def lf : UInt8 := 10

/-! ## The code -/

/-- The loop of `readline`: the line read so far is `acc`.  A round takes a byte,
so the first argument bounds their number. -/
def readlineLoop : ℕ → Bytearray → List UInt8 → Option (List UInt8 × List UInt8) × Bytearray
  | 0, ba, _ => (none, ba)
  | rounds + 1, ba, acc =>
      match streamStep ba (.getBytes 1) with
      | (ba, .string b) =>
          if b = [cr] then
            let (ba, next) := streamStep ba (.testBytes 1)
            if next ≠ .string [lf] then (some (acc, [cr]), ba)
            else (some (acc, [cr, lf]), (streamStep ba (.getBytes 1)).1)
          else if b = [lf] then (some (acc, [lf]), ba)
          else readlineLoop rounds ba (acc ++ b)
      | (ba, _) => (none, (streamStep ba .reset).1)

/-- `readline`: the line and its line end, or nothing. -/
def readline (ba : Bytearray) : Option (List UInt8 × List UInt8) × Bytearray :=
  if 0 < bytearrayReadAvailable ba then
    let ba := (streamStep ba .mark).1
    readlineLoop (bytearrayReadAvailable ba + 1) ba []
  else (none, ba)

/-! ## Lines of the unread bytes -/

/-- What follows a CR: a LF belongs to the line end. -/
def dropLf : List UInt8 → List UInt8
  | [] => []
  | b :: u => if b = lf then u else b :: u

/-- The first line of `u` and what follows its line end, if there is one. -/
def splitLine : List UInt8 → Option (List UInt8 × List UInt8)
  | [] => none
  | b :: u =>
      if b = cr then some ([], dropLf u)
      else if b = lf then some ([], u)
      else (splitLine u).map fun p => (b :: p.1, p.2)

/-- A buffer that is being read, with `u` unread and `back` after a reset. -/
def ReadsFrom (ba : Bytearray) (back u : List UInt8) : Prop :=
  ∃ t, Represents ba t ∧ ba.reading = true ∧ t.unread = u ∧ t.reset.unread = back

/-- A buffer that is being read, with `u` unread. -/
def Reads (ba : Bytearray) (u : List UInt8) : Prop := ∃ back, ReadsFrom ba back u

theorem Reads.available_eq {ba : Bytearray} {u : List UInt8} (h : Reads ba u) :
    bytearrayReadAvailable ba = u.length := by
  obtain ⟨back, t, hrep, hread, rfl, -⟩ := h
  exact hrep.available_eq hread

/-- The unread bytes of a stream. -/
def unreadOf (ba : Bytearray) : List UInt8 :=
  bytesAt ba.buffer ba.offset (bytearrayReadAvailable ba)

theorem Reads.unreadOf_eq {ba : Bytearray} {u : List UInt8} (h : Reads ba u) : unreadOf ba = u := by
  obtain ⟨back, t, hrep, hread, rfl, -⟩ := h
  rw [unreadOf, hrep.available_eq hread, hrep.bytesAt_eq hread le_rfl, List.take_length]

/-- The stream operations of `readline`, on the unread bytes. -/
theorem ReadsFrom.mark {ba : Bytearray} {back u : List UInt8} (h : ReadsFrom ba back u) :
    ReadsFrom (streamStep ba .mark).1 u u := by
  obtain ⟨t, hrep, hread, rfl, -⟩ := h
  have hop : StreamOp.mark.allowed ba.reading = true := hread
  have hstep := (streamStep_represents hrep hop).2
  refine ⟨t.setMark, hstep, ?_, rfl, rfl⟩
  exact hstep.reading_eq.trans (hrep.reading_eq ▸ hread)

theorem ReadsFrom.reset {ba : Bytearray} {back u : List UInt8} (h : ReadsFrom ba back u) :
    ReadsFrom (streamStep ba .reset).1 back back := by
  obtain ⟨t, hrep, hread, -, rfl⟩ := h
  have hop : StreamOp.reset.allowed ba.reading = true := hread
  have hstep := (streamStep_represents hrep hop).2
  refine ⟨t.reset, hstep, ?_, rfl, rfl⟩
  exact hstep.reading_eq.trans (hrep.reading_eq ▸ hread)

theorem takeLen_one (u : List UInt8) : takeLen 1 u = min 1 u.length := by
  have h1 : toSize 1 = 1 := rfl
  rw [takeLen, h1]
  omega

/-- `GetBytes(1)`: the next byte, or nothing. -/
theorem ReadsFrom.getByte {ba : Bytearray} {back u : List UInt8} (h : ReadsFrom ba back u) :
    (streamStep ba (.getBytes 1)).2 = StreamResult.ofBytes (u.take 1) ∧
      ReadsFrom (streamStep ba (.getBytes 1)).1 back (u.drop 1) := by
  obtain ⟨t, hrep, hread, rfl, hback⟩ := h
  obtain ⟨hres, hstep⟩ := streamStep_tapeStep_read hrep (rfl : (StreamOp.getBytes 1).isRead = true) hread
  have h1 : toSize 1 = 1 := rfl
  have hmin : min 1 t.unread.length ≤ t.unread.length := Nat.min_le_right _ _
  simp only [StreamOp.readSpec, h1, one_ne_zero, if_false, takeLen_one] at hres hstep
  have htake : t.unread.take (min 1 t.unread.length) = t.unread.take 1 := by
    rw [← List.take_eq_take_min]
  have hdrop : t.unread.drop (min 1 t.unread.length) = t.unread.drop 1 := by
    cases t.unread <;> simp
  rw [htake] at hres
  refine ⟨hres, t.advance (min 1 t.unread.length), hstep, ?_, ?_, hback⟩
  · exact hstep.reading_eq.trans (hrep.reading_eq ▸ hread)
  · rw [t.unread_advance (hrep.reading_eq ▸ hread) hmin, hdrop]

/-- `TestBytes(1)`: the next byte, without passing it. -/
theorem ReadsFrom.testByte {ba : Bytearray} {back u : List UInt8} (h : ReadsFrom ba back u) :
    (streamStep ba (.testBytes 1)).2 = StreamResult.ofBytes (u.take 1) ∧
      ReadsFrom (streamStep ba (.testBytes 1)).1 back u := by
  obtain ⟨t, hrep, hread, rfl, hback⟩ := h
  obtain ⟨hres, hstep⟩ := streamStep_tapeStep_read hrep (rfl : (StreamOp.testBytes 1).isRead = true) hread
  have h1 : toSize 1 = 1 := rfl
  simp only [StreamOp.readSpec, h1, one_ne_zero, if_false, takeLen_one] at hres hstep
  rw [← List.take_eq_take_min] at hres
  refine ⟨hres, t.advance 0, hstep, ?_, ?_, hback⟩
  · exact hstep.reading_eq.trans (hrep.reading_eq ▸ hread)
  · rw [t.unread_advance (hrep.reading_eq ▸ hread) (Nat.zero_le _), List.drop_zero]

/-- The loop reads what `splitLine` says, or goes back. -/
theorem readlineLoop_reads (u : List UInt8) :
    ∀ (rounds : ℕ) (ba : Bytearray) (back acc : List UInt8), ReadsFrom ba back u →
      u.length < rounds →
      match splitLine u with
      | none => (readlineLoop rounds ba acc).1 = none ∧
          ReadsFrom (readlineLoop rounds ba acc).2 back back
      | some (line, rest) => (∃ flag, (readlineLoop rounds ba acc).1 = some (acc ++ line, flag)) ∧
          ReadsFrom (readlineLoop rounds ba acc).2 back rest := by
  induction u with
  | nil =>
      intro rounds ba back acc h hrounds
      obtain ⟨rounds, rfl⟩ := Nat.exists_eq_succ_of_ne_zero (by omega : rounds ≠ 0)
      obtain ⟨hres, hstep⟩ := h.getByte
      rw [splitLine, readlineLoop]
      simp only [List.take_nil, List.drop_nil, StreamResult.ofBytes, List.length_nil,
        lt_irrefl, if_false] at hres hstep
      rw [show streamStep ba (.getBytes 1) = ((streamStep ba (.getBytes 1)).1, .nothing) by
        rw [← hres]]
      exact ⟨rfl, hstep.reset⟩
  | cons b u ih =>
      intro rounds ba back acc h hrounds
      obtain ⟨rounds, rfl⟩ := Nat.exists_eq_succ_of_ne_zero (by omega : rounds ≠ 0)
      obtain ⟨hres, hstep⟩ := h.getByte
      simp only [List.take_succ_cons, List.take_zero, List.drop_succ_cons, List.drop_zero,
        StreamResult.ofBytes, List.length_singleton, zero_lt_one, if_true] at hres hstep
      rw [splitLine, readlineLoop]
      rw [show streamStep ba (.getBytes 1) = ((streamStep ba (.getBytes 1)).1, .string [b]) by
        rw [← hres]]
      simp only [List.cons.injEq, and_true]
      by_cases hcr : b = cr
      · -- a CR ends the line; a LF after it is passed too
        obtain ⟨htest, hsame⟩ := hstep.testByte
        simp only [hcr, if_true]
        cases u with
        | nil =>
            simp only [List.take_nil, StreamResult.ofBytes, List.length_nil, lt_irrefl, if_false]
              at htest
            rw [htest]
            exact ⟨⟨[cr], by simp⟩, hsame⟩
        | cons c u =>
            simp only [List.take_succ_cons, List.take_zero, StreamResult.ofBytes,
              List.length_singleton, zero_lt_one, if_true] at htest
            rw [htest]
            by_cases hlf : c = lf
            · simp only [hlf, ne_eq, not_true_eq_false, if_false, dropLf, if_true]
              subst hlf
              exact ⟨⟨[cr, lf], by simp⟩, hsame.getByte.2⟩
            · simp only [StreamResult.string.injEq, List.cons.injEq, hlf, and_true, ne_eq,
                not_false_eq_true, if_true, dropLf, if_false]
              exact ⟨⟨[cr], by simp⟩, hsame⟩
      · by_cases hlf : b = lf
        · subst hlf
          simp only [hcr, if_false, if_true]
          exact ⟨⟨[lf], by simp⟩, hstep⟩
        · simp only [hcr, hlf, if_false]
          have hrec := ih rounds _ back (acc ++ [b]) hstep (by simpa using hrounds)
          cases hsplit : splitLine u with
          | none =>
              rw [hsplit] at hrec
              exact hrec
          | some p =>
              rw [hsplit] at hrec
              simpa using hrec

/-- **`readline` takes the first line off the unread bytes**, or leaves them all. -/
theorem readline_reads {ba : Bytearray} {u : List UInt8} (h : Reads ba u) :
    match splitLine u with
    | none => (readline ba).1 = none ∧ Reads (readline ba).2 u
    | some (line, rest) =>
        (∃ flag, (readline ba).1 = some (line, flag)) ∧ Reads (readline ba).2 rest := by
  have hav := h.available_eq
  obtain ⟨back, hback⟩ := h
  unfold readline
  cases u with
  | nil =>
      rw [hav]
      exact ⟨rfl, back, hback⟩
  | cons b u =>
      have hpos : 0 < bytearrayReadAvailable ba := by
        rw [hav]
        simp
      rw [if_pos hpos]
      have hmark := hback.mark
      have hmarked : Reads (streamStep ba .mark).1 (b :: u) := ⟨_, hmark⟩
      have hloop := readlineLoop_reads (b :: u) (bytearrayReadAvailable (streamStep ba .mark).1 + 1)
        _ _ [] hmark (by rw [hmarked.available_eq]; omega)
      cases hsplit : splitLine (b :: u) with
      | none =>
          rw [hsplit] at hloop
          exact ⟨hloop.1, _, hloop.2⟩
      | some p =>
          rw [hsplit] at hloop
          simp only [List.nil_append] at hloop
          exact ⟨hloop.1, _, hloop.2⟩

/-! ## Lines and what arrives later -/

/-- Does `u` hold a line end? -/
def hasLineEnd (u : List UInt8) : Bool := u.any fun b => b = cr || b = lf

theorem hasLineEnd_append (u v : List UInt8) :
    hasLineEnd (u ++ v) = (hasLineEnd u || hasLineEnd v) := by
  simp [hasLineEnd]

theorem splitLine_eq_none_iff (u : List UInt8) : splitLine u = none ↔ hasLineEnd u = false := by
  induction u with
  | nil => simp [splitLine, hasLineEnd]
  | cons b u ih =>
      simp only [splitLine, hasLineEnd, List.any_cons, Bool.or_eq_false_iff, decide_eq_false_iff_not]
      simp only [hasLineEnd] at ih
      by_cases hcr : b = cr
      · simp [hcr]
      · by_cases hlf : b = lf
        · rw [if_neg hcr, if_pos hlf]
          simp [hlf]
        · simp [hcr, hlf, ih]

/-- A line takes at least its line end. -/
theorem length_splitLine {u line rest : List UInt8} (h : splitLine u = some (line, rest)) :
    rest.length < u.length := by
  induction u generalizing line rest with
  | nil => cases h
  | cons b u ih =>
      rw [splitLine] at h
      split at h
      · cases h
        have : (dropLf u).length ≤ u.length := by
          cases u with
          | nil => simp [dropLf]
          | cons c u =>
              rw [dropLf]
              split <;> simp
        simp only [List.length_cons]
        omega
      · split at h
        · cases h
          simp
        · obtain ⟨p, hp, heq⟩ := Option.map_eq_some_iff.mp h
          cases heq
          have := ih hp
          simp only [List.length_cons]
          omega

/-- A chunk boundary between a CR and its LF. -/
def cutsCrLf (p q : List UInt8) : Bool :=
  decide (p.getLast? = some cr) && decide (q.head? = some lf)

/-- **A complete line does not depend on what arrives later**, unless the boundary
falls between a CR and its LF. -/
theorem splitLine_append {u line rest : List UInt8} (h : splitLine u = some (line, rest))
    (q : List UInt8) :
    splitLine (u ++ q) = some (line, if rest = [] ∧ cutsCrLf u q = true then q.tail else rest ++ q) := by
  induction u generalizing line rest with
  | nil => cases h
  | cons b u ih =>
      rw [splitLine] at h
      rw [List.cons_append, splitLine]
      by_cases hcr : b = cr
      · simp only [hcr, if_true] at h ⊢
        cases h
        cases u with
        | nil =>
            cases q with
            | nil => simp [dropLf]
            | cons c q =>
                by_cases hlf : c = lf
                · simp [dropLf, cutsCrLf, hlf]
                · simp [dropLf, cutsCrLf, hlf]
        | cons c u =>
            by_cases hlf : c = lf
            · simp only [List.cons_append, dropLf, hlf, if_true]
              rw [if_neg]
              rintro ⟨rfl, hcut⟩
              simp [cutsCrLf, cr, lf] at hcut
            · simp [dropLf, hlf]
      · simp only [hcr, if_false] at h ⊢
        by_cases hlf : b = lf
        · simp only [hlf, if_true] at h ⊢
          cases h
          rw [if_neg]
          rintro ⟨rfl, hcut⟩
          simp [cutsCrLf, cr, lf] at hcut
        · simp only [hlf, if_false] at h ⊢
          obtain ⟨p, hp, heq⟩ := Option.map_eq_some_iff.mp h
          cases heq
          have hne : u ≠ [] := by
            rintro rfl
            cases hp
          have hcut : cutsCrLf (b :: u) q = cutsCrLf u q := by
            cases u with
            | nil => exact absurd rfl hne
            | cons c u => simp [cutsCrLf]
          rw [ih hp, hcut]
          rfl

/-! ## Reading a line with its end -/

theorem ReadsFrom.getByte_cons {ba : Bytearray} {back u : List UInt8} {b : UInt8}
    (h : ReadsFrom ba back (b :: u)) :
    ∃ ba', streamStep ba (.getBytes 1) = (ba', .string [b]) ∧ ReadsFrom ba' back u := by
  obtain ⟨hres, hstep⟩ := h.getByte
  exact ⟨_, Prod.ext rfl hres, hstep⟩

theorem ReadsFrom.testByte_cons {ba : Bytearray} {back u : List UInt8} {b : UInt8}
    (h : ReadsFrom ba back (b :: u)) :
    ∃ ba', streamStep ba (.testBytes 1) = (ba', .string [b]) ∧ ReadsFrom ba' back (b :: u) := by
  obtain ⟨hres, hstep⟩ := h.testByte
  exact ⟨_, Prod.ext rfl hres, hstep⟩

/-- The line ends that do not depend on what follows. -/
def FirmEnd (flag : List UInt8) : Prop := flag = [cr, lf] ∨ flag = [lf]

theorem readlineLoop_line {flag : List UInt8} (hflag : FirmEnd flag) (v : List UInt8) {l : List UInt8}
    (hl : hasLineEnd l = false) :
    ∀ (rounds : ℕ) (ba : Bytearray) (back acc : List UInt8), ReadsFrom ba back (l ++ flag ++ v) →
      l.length < rounds →
      ∃ ba', readlineLoop rounds ba acc = (some (acc ++ l, flag), ba') ∧ ReadsFrom ba' back v := by
  induction l with
  | nil =>
      intro rounds ba back acc h hrounds
      obtain ⟨rounds, rfl⟩ := Nat.exists_eq_succ_of_ne_zero (by omega : rounds ≠ 0)
      rcases hflag with rfl | rfl
      · obtain ⟨ba₁, hget, h₁⟩ := h.getByte_cons
        obtain ⟨ba₂, htest, h₂⟩ := h₁.testByte_cons
        obtain ⟨ba₃, hpass, h₃⟩ := h₂.getByte_cons
        refine ⟨ba₃, ?_, h₃⟩
        simp [readlineLoop, hget, htest, hpass]
      · obtain ⟨ba₁, hget, h₁⟩ := h.getByte_cons
        refine ⟨ba₁, ?_, h₁⟩
        rw [readlineLoop, hget]
        simp [cr, lf]
  | cons b l ih =>
      intro rounds ba back acc h hrounds
      obtain ⟨rounds, rfl⟩ := Nat.exists_eq_succ_of_ne_zero (by omega : rounds ≠ 0)
      simp only [hasLineEnd, List.any_cons, Bool.or_eq_false_iff, decide_eq_false_iff_not] at hl
      obtain ⟨⟨hcr, hlf⟩, hl⟩ := hl
      obtain ⟨ba₁, hget, h₁⟩ := h.getByte_cons
      obtain ⟨ba₂, hloop, h₂⟩ := ih hl rounds ba₁ back (acc ++ [b]) h₁ (by simpa using hrounds)
      refine ⟨ba₂, ?_, h₂⟩
      rw [readlineLoop, hget]
      simp only [List.cons.injEq, hcr, hlf, and_true, if_false]
      rw [hloop]
      simp

/-- **A line that ends in CR LF, or in LF, is read with its end.** -/
theorem readline_line {ba : Bytearray} {flag l v : List UInt8} (hflag : FirmEnd flag)
    (hl : hasLineEnd l = false) (h : Reads ba (l ++ flag ++ v)) :
    ∃ ba', readline ba = (some (l, flag), ba') ∧ Reads ba' v := by
  have hav := h.available_eq
  obtain ⟨back, hback⟩ := h
  have hmark := hback.mark
  have hmarked : Reads (streamStep ba .mark).1 (l ++ flag ++ v) := ⟨_, hmark⟩
  have hpos : 0 < flag.length := by rcases hflag with rfl | rfl <;> simp
  obtain ⟨ba', hloop, h'⟩ := readlineLoop_line hflag v hl
    (bytearrayReadAvailable (streamStep ba .mark).1 + 1) _ _ [] hmark (by
      rw [hmarked.available_eq]
      simp only [List.length_append]
      omega)
  refine ⟨ba', ?_, _, h'⟩
  rw [readline, if_pos (by rw [hav]; simp only [List.length_append]; omega)]
  exact hloop

end LuaFan
