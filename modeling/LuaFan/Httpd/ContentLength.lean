/-
# The length of a request (`modules/fan/httpd/httpd.lua`, `context_index_content_length`)

The pattern of the length has a bar in it, which is a character like any other in a Lua
pattern: `strMatch_contentLength`.

* `content_length_exact`: a request's length is read as it should be, **exactly if** it has no
  such header, or one that is neither a number nor a number behind `0|`.
-/
import LuaFan.Lib.LuaPattern
import LuaFan.Httpd.KeepAlive

namespace LuaFan

open Fp LuaPattern

/-! ## The pattern -/

/-- The digits of the pattern, as sets. -/
theorem single_set : single (bytesOf "[0-9]") = isDigit ∧
    single (bytesOf "[1-9]") = fun c => isDigit c && c != ascii '0' := by
  constructor
  · ext c
    revert c
    decide +kernel
  · ext c
    revert c
    decide +kernel

theorem isItem_set : IsItem (bytesOf "[0-9]") ∧ IsItem (bytesOf "[1-9]") := by
  have hset : bytesOf "[0-9]" = [91, 48, 45, 57, 93] ∧ bytesOf "[1-9]" = [91, 49, 45, 57, 93] := by
    decide
  rw [hset.1, hset.2]
  exact ⟨⟨fun p => rfl, 91, _, rfl, by decide, by decide, fun h => absurd h (by decide)⟩,
    ⟨fun p => rfl, 91, _, rfl, by decide, by decide, fun h => absurd h (by decide)⟩⟩

/-- The end of the pattern, from the repetition on: all the rest are digits. -/
theorem matchHere_digits {text : List UInt8} {s rounds depth : ℕ} (hs : s ≤ text.length) :
    matchHere text (rounds + 3) (depth + 2) (bytesOf "[0-9]" ++ ascii '*' :: [ascii ')', ascii '$']) s
        [⟨0, .unfinished⟩] =
      .ok (if (text.drop s).all isDigit then some (text.length, [⟨0, .closed text.length⟩]) else none) := by
  have hclose : ∀ depth e, matchHere text (rounds + 2) (depth + 1) [ascii ')', ascii '$'] e [⟨0, .unfinished⟩] =
      .ok (if e = text.length then some (e, [⟨0, .closed e⟩]) else none) := by
    intro depth e
    rw [matchHere_close, matchHere_end, Nat.sub_zero]
  rw [matchHere_star isItem_set.1, single_set.1]
  simp only [hclose]
  by_cases hall : (text.drop s).all isDigit = true
  · have hrun : (text.drop s).takeWhile isDigit = text.drop s :=
      List.takeWhile_eq_self_iff.mpr (List.all_eq_true.mp hall)
    have hend : s + (text.drop s).length = text.length := by
      rw [List.length_drop]
      omega
    rw [if_pos hall, hrun]
    split
    · rw [maxExpand_longest]
      · simp only [hend, if_true]
      · simp only [hend, if_true, ne_eq, Except.ok.injEq, reduceCtorEq, not_false_eq_true]
    · rename_i hnone
      have hnil : text.drop s = [] := by
        cases hdrop : text.drop s with
        | nil => rfl
        | cons c rest =>
            rw [hdrop] at hnone hall
            simp only [List.all_cons, Bool.and_eq_true] at hall
            exact absurd hall.1 (by simpa using hnone)
      rw [hnil, List.length_nil, Nat.add_zero] at hend
      simp only [hend, if_true]
  · have hrun : ((text.drop s).takeWhile isDigit).length < (text.drop s).length := by
      refine lt_of_le_of_ne (List.takeWhile_prefix _).length_le fun heq => hall ?_
      exact List.all_eq_true.mpr
        (List.takeWhile_eq_self_iff.mp ((List.takeWhile_prefix _).eq_of_length heq))
    rw [List.length_drop] at hrun
    rw [if_neg hall]
    split
    · by_contra hfound
      obtain ⟨i, hi, heq⟩ := exists_of_maxExpand hfound
      rw [if_neg (by omega)] at heq
      exact hfound heq
    · rw [if_neg (by omega)]

theorem eq_of_matchContentLength {text num : List UInt8} (h : matchContentLength text = some num) :
    num = text := by
  unfold matchContentLength at h
  split at h
  · split at h
    · exact (Option.some.inj h).symm
    · cases h
  · cases h

/-- **What the pattern matches**: a zero, a bar, and a number. -/
theorem strMatch_contentLength (text : List UInt8) :
    strMatch text (bytesOf "^(0|[1-9][0-9]*)$") =
      .ok ((matchContentLength text).map fun num => [.text num]) := by
  have hpattern : bytesOf "^(0|[1-9][0-9]*)$" =
      ascii '^' :: ascii '(' :: ([ascii '0'] ++ ([ascii '|'] ++ (bytesOf "[1-9]" ++
        (bytesOf "[0-9]" ++ ascii '*' :: [ascii ')', ascii '$'])))) := by decide
  have hopen : ([ascii '0'] ++ ([ascii '|'] ++ (bytesOf "[1-9]" ++ (bytesOf "[0-9]" ++
      ascii '*' :: [ascii ')', ascii '$'])))).head? ≠ some (ascii ')') := by decide
  have hattempt : attempt text (ascii '(' :: ([ascii '0'] ++ ([ascii '|'] ++ (bytesOf "[1-9]" ++
      (bytesOf "[0-9]" ++ ascii '*' :: [ascii ')', ascii '$']))))) 0 =
      .ok ((matchContentLength text).map fun num => (num.length, [⟨0, .closed num.length⟩])) := by
    rw [attempt]
    show matchHere text 17 199 _ 0 [] = _
    rw [matchHere_open hopen (by decide), matchHere_once (isItem_byte (by decide)) (by decide) (by decide),
      matchHere_once (isItem_byte (by decide)) (by decide) (by decide),
      matchHere_once isItem_set.2 (by decide) (by decide), single_set.2]
    match text with
    | [] => rfl
    | [a] => simp [matchContentLength]
    | [a, b] => simp [matchContentLength]
    | a :: b :: c :: digits =>
        rw [matchHere_digits (by simp)]
        simp only [List.drop_zero, Nat.zero_add, List.drop_succ_cons, List.head?_cons, Option.any_some,
          single_byte (b := ascii '0') (by decide), single_byte (b := ascii '|') (by decide)]
        by_cases h : a = ascii '0' ∧ b = ascii '|'
        · obtain ⟨rfl, rfl⟩ := h
          have hbar : bytesOf "0|" = [ascii '0', ascii '|'] := by decide
          simp only [matchContentLength, List.drop_succ_cons, List.drop_zero, List.take_succ_cons,
            List.take_zero, hbar, beq_self_eq_true, if_true, decide_true, Bool.true_and]
          by_cases hc : (isDigit c && c != ascii '0') = true
          · by_cases hdigits : digits.all isDigit = true <;> simp [hc, hdigits]
          · simp [hc]
        · have hbar : bytesOf "0|" = [ascii '0', ascii '|'] := by decide
          have hne : ¬[a, b] = [ascii '0', ascii '|'] := by simpa using h
          have hnone : matchContentLength (a :: b :: c :: digits) = none := by
            simp only [matchContentLength, List.drop_succ_cons, List.drop_zero, List.take_succ_cons,
              List.take_zero, hbar, hne, decide_false, Bool.false_and, Bool.false_eq_true, if_false]
          rw [hnone]
          split
          · split
            · rename_i ha hb
              exact absurd ⟨(beq_iff_eq.mp ha).symm, (beq_iff_eq.mp hb).symm⟩ h
            · rfl
          · rfl
  rw [hpattern, strMatch, if_pos rfl, search, hattempt]
  cases hmatch : matchContentLength text with
  | none => rfl
  | some num =>
      have htext : num = text := eq_of_matchContentLength hmatch
      simp [htext, captureValues, Capture.value, bind, Except.bind, pure, Except.pure]

/-! ## The length -/

/-- The numbers that are lengths: zero, or digits that begin with none. -/
def IsContentLength (text : List UInt8) : Prop :=
  text = bytesOf "0" ∨ text ≠ [] ∧ text.head? ≠ some (ascii '0') ∧ ∀ b ∈ text, isDigit b = true

/-- The access to the length answers 0 and records an error. -/
def Marks (limit : LuaNumber) (ctx : Context) (code : ℕ) : Prop :=
  ∃ e : HttpError, e.code = code ∧ indexContentLength limit ctx = some (.integer 0, some e)

/-- The access to the length answers a number and records nothing. -/
def Answers (limit : LuaNumber) (ctx : Context) (length : ℕ) : Prop :=
  ∃ n : LuaNumber, n.value = intValue length ∧ indexContentLength limit ctx = some (n, none)

/-- The length of a request is read as it should be.  No error has been recorded before. -/
def ReadsLength (limit : LuaNumber) (ctx : Context) : Prop :=
  let ctx := { ctx with httpError := none }
  match getHeader ctx.headers (bytesOf "content-length") with
  | none => Answers limit ctx 0
  | some (.many _) => Marks limit ctx 400
  | some (.single text) =>
      (¬IsContentLength text → Marks limit ctx 400) ∧
      (IsContentLength text →
        if Value.le (intValue (digitsValue 10 text)) limit.value then Answers limit ctx (digitsValue 10 text)
        else Marks limit ctx 413)

/-- Without a header, and with one that is no number, nothing can go wrong; the exception is a
number behind `0|`. -/
def NoLength : Option HeaderValue → Prop
  | none => True
  | some (.many _) => False
  | some (.single text) => ¬IsContentLength text ∧ matchContentLength text = none

/-- What the pattern matches is no length. -/
theorem not_isContentLength_of_match {text num : List UInt8} (h : matchContentLength text = some num) :
    ¬IsContentLength text := by
  have htake : text.take 2 = bytesOf "0|" := by
    unfold matchContentLength at h
    split at h
    · split at h
      · rename_i hmatch
        simp only [Bool.and_eq_true, decide_eq_true_eq] at hmatch
        exact hmatch.1.1.1
      · cases h
    · cases h
  rintro (rfl | ⟨-, -, hdigits⟩)
  · revert htake
    decide +kernel
  · have hmem : ascii '|' ∈ text.take 2 := by
      rw [htake]
      decide +kernel
    have hbar := hdigits _ (List.mem_of_mem_take hmem)
    revert hbar
    decide

/-- **The length of a request** is read as it should be exactly if there is none. -/
theorem content_length_exact (limit : LuaNumber) (ctx : Context) :
    ReadsLength limit ctx ↔ NoLength (getHeader ctx.headers (bytesOf "content-length")) := by
  have hlength := indexContentLength_eq limit { ctx with httpError := none }
  simp only [contentLengthRaises] at hlength
  cases hheader : getHeader ctx.headers (bytesOf "content-length") with
  | none =>
      simp only [hheader, Bool.false_eq_true, if_false] at hlength
      simp only [ReadsLength, hheader, NoLength, iff_true]
      exact ⟨.integer 0, rfl, hlength⟩
  | some value =>
      cases value with
      | many values =>
          simp only [hheader, Bool.false_eq_true, if_false] at hlength
          simp only [ReadsLength, hheader, NoLength, iff_false]
          rintro ⟨e, -, he⟩
          rw [hlength] at he
          cases he
      | single text =>
          simp only [hheader] at hlength
          simp only [ReadsLength, hheader, NoLength]
          cases hmatch : matchContentLength text with
          | some num =>
              rw [hmatch] at hlength
              simp only [Option.isSome_some, if_true] at hlength
              simp only [reduceCtorEq, and_false, iff_false]
              rintro ⟨hinvalid, -⟩
              obtain ⟨e, -, he⟩ := hinvalid (not_isContentLength_of_match hmatch)
              rw [hlength] at he
              cases he
          | none =>
              rw [hmatch] at hlength
              simp only [Option.isSome_none, Bool.false_eq_true, if_false] at hlength
              simp only [and_true]
              constructor
              · rintro ⟨-, hvalid⟩ his
                have hresult := hvalid his
                split at hresult
                · obtain ⟨n, -, hn⟩ := hresult
                  rw [hlength] at hn
                  cases hn
                · obtain ⟨e, hcode, he⟩ := hresult
                  rw [hlength] at he
                  cases he
                  exact absurd hcode (by decide)
              · exact fun hnot => ⟨fun _ => ⟨_, rfl, hlength⟩, fun his => absurd his hnot⟩

/-- A request with the length 5 is marked as malformed. -/
theorem content_length_of_five :
    let ctx : Context := { Context.new with headers := [(bytesOf "content-length", .single (bytesOf "5"))] }
    indexContentLength (.integer 10485760) ctx
        = some (.integer 0, some (badRequest "Invalid Content-Length header")) ∧
      ¬ReadsLength (.integer 10485760) ctx := by
  refine ⟨by decide +kernel, ?_⟩
  rintro ⟨-, hvalid⟩
  have his : IsContentLength (bytesOf "5") := Or.inr (by decide +kernel)
  have hlimit : Value.le (intValue (digitsValue 10 (bytesOf "5"))) (LuaNumber.integer 10485760).value = true := by
    decide +kernel
  have hanswer := hvalid his
  rw [if_pos hlimit] at hanswer
  obtain ⟨n, -, hn⟩ := hanswer
  have herror : (indexContentLength (.integer 10485760)
      { Context.new with headers := [(bytesOf "content-length", .single (bytesOf "5"))] }).map Prod.snd
      = some (some (badRequest "Invalid Content-Length header")) := by decide +kernel
  have hnone := congrArg (Option.map Prod.snd) hn
  exact absurd (Option.some.inj (herror.symm.trans hnone)) (Option.some_ne_none _)

end LuaFan
