import MxLib.Http.MultipartBuffer
import MxLib.Library.Stream

/-!
# The multipart parser as a machine on single characters

`parseChar` gives `Parse` one character in a call of its own.  The result so far of
a call does not matter to the parser unless it is a failure (`charTurn_same`), and a
failure ends the call in the state `Error`, which takes no more characters.  So a
call with a buffer does what calls with its characters do (`parse_eq_feed`), and
where the body is cut into buffers does not matter (`parseCalls_eq_feed`).

`TurnAt` says which parser a turn of such a run looks at, and at which character of
the body.
-/

namespace MxLib.Http.Multipart

open MxLib.Library MxLib.Library.Stream

section Stream

variable {φ ω : Type} (e : Env φ ω)

/-- One character given to `Parse` in a call of its own. -/
def parseChar (s : Parser φ ω) (ch : Byte) : Except Nat (Parser φ ω) :=
  (parse e s (some [ch])).map Prod.snd

/-- A turn at character `n` of a body that `Parse` is called with in the buffers
`bufs`, one after the other. -/
inductive TurnAt : Parser φ ω → List (List Byte) → Nat → Cursor φ ω → Prop
  | turn {s : Parser φ ω} {szDataA : List Byte} {bufs : List (List Byte)} {c : Cursor φ ω}
      (hdone : s.nState ≠ .done) (herror : s.nState ≠ .error)
      (hreach : Loop.Reach (parseTurn e) ⟨.sOk, s, szDataA⟩ c) :
      TurnAt s (szDataA :: bufs) (szDataA.length - c.szDataA.length) c
  | call {s s' : Parser φ ω} {szDataA : List Byte} {hRes : HResult} {bufs : List (List Byte)}
      {n : Nat} {c : Cursor φ ω} (hparse : parse e s (some szDataA) = .ok (hRes, s'))
      (hturn : TurnAt s' bufs n c) : TurnAt s (szDataA :: bufs) (szDataA.length + n) c

variable {e}

/-! ### The result so far -/

/-- Two turns that do the same to the parser: they go on without a failure, or leave
with one. -/
def CharTurn.Same : CharTurn φ ω → CharTurn φ ω → Prop
  | .next hRes s, .next hRes' s' => hRes.failed = false ∧ hRes'.failed = false ∧ s = s'
  | .again hRes s, .again hRes' s' => hRes.failed = false ∧ hRes'.failed = false ∧ s = s'
  | .leave hRes s, .leave hRes' s' => hRes.failed = true ∧ hRes'.failed = true ∧ s = s'
  | .overrun nIndex, .overrun nIndex' => nIndex = nIndex'
  | _, _ => False

section Same

variable {hRes hRes' : HResult} (h : hRes.failed = false) (h' : hRes'.failed = false)
include h h'

theorem expect_same (ok : Bool) (s : Parser φ ω) (nState : EState) :
    (expect ok hRes s nState).Same (expect ok hRes' s nState) := by
  rw [expect, expect]
  split
  · exact ⟨h, h', rfl⟩
  · exact ⟨rfl, rfl, rfl⟩

theorem boundaryTurn_same (s : Parser φ ω) (ch : Byte) :
    (boundaryTurn e hRes s ch).Same (boundaryTurn e hRes' s ch) := by
  rw [boundaryTurn, boundaryTurn]
  split_ifs <;> first | exact ⟨h, h', rfl⟩ | exact ⟨rfl, rfl, rfl⟩

theorem blanksTurn_same (nState : EState) (s : Parser φ ω) (ch : Byte) :
    (blanksTurn nState hRes s ch).Same (blanksTurn nState hRes' s ch) := by
  rw [blanksTurn, blanksTurn]
  split
  · exact ⟨h, h', rfl⟩
  · exact expect_same h h' _ _ _

theorem boundaryAfterEndTurn_same (s : Parser φ ω) (ch : Byte) :
    (boundaryAfterEndTurn hRes s ch).Same (boundaryAfterEndTurn hRes' s ch) := by
  rw [boundaryAfterEndTurn, boundaryAfterEndTurn]
  split
  · exact ⟨rfl, rfl, rfl⟩
  · exact ⟨h, h', rfl⟩

theorem headerNameTurn_same (s : Parser φ ω) (ch : Byte) :
    (headerNameTurn hRes s ch).Same (headerNameTurn hRes' s ch) := by
  rw [headerNameTurn, headerNameTurn]
  dsimp only
  split_ifs <;> first | exact ⟨h, h', rfl⟩ | exact ⟨rfl, rfl, rfl⟩

/-- Two calls that fail together and leave the same parser. -/
def SameResult (r r' : HResult × Parser φ ω) : Prop :=
  r.1.failed = r'.1.failed ∧ r.2 = r'.2

theorem endHeaderLine_same (s : Parser φ ω) :
    SameResult (endHeaderLine e hRes s) (endHeaderLine e hRes' s) := by
  rw [endHeaderLine, endHeaderLine]
  split
  · exact ⟨h.trans h'.symm, rfl⟩
  · exact ⟨rfl, rfl⟩

theorem headerStartTurn_same (s : Parser φ ω) (ch : Byte) :
    (headerStartTurn e hRes s ch).Same (headerStartTurn e hRes' s ch) := by
  obtain ⟨hfail, hs⟩ := endHeaderLine_same (e := e) h h' s
  rw [headerStartTurn, headerStartTurn]
  dsimp only
  rw [← hs]
  cases hf : (endHeaderLine e hRes s).1.failed with
  | true =>
    rw [hf] at hfail
    simp only [← hfail, if_true]
    split_ifs <;> first | exact ⟨h, h', rfl⟩ | exact ⟨hf, hfail.symm, rfl⟩ | exact ⟨rfl, rfl, rfl⟩
  | false =>
    rw [hf] at hfail
    simp only [← hfail, Bool.false_eq_true, if_false]
    split_ifs
    · exact ⟨hf, hfail.symm, rfl⟩
    · exact ⟨rfl, rfl, rfl⟩
    · exact ⟨h, h', rfl⟩
    · exact headerNameTurn_same hf hfail.symm _ _

theorem headerValueTurn_same (s : Parser φ ω) (ch : Byte) :
    (headerValueTurn hRes s ch).Same (headerValueTurn hRes' s ch) := by
  rw [headerValueTurn, headerValueTurn]
  dsimp only
  split_ifs <;> first | exact ⟨h, h', rfl⟩ | exact ⟨rfl, rfl, rfl⟩

theorem startFile_same (s : Parser φ ω) :
    SameResult (startFile e hRes s) (startFile e hRes' s) := by
  rw [startFile, startFile]
  dsimp only
  split
  · exact ⟨rfl, rfl⟩
  · cases e.cDownloadStartedCallback with
    | none => exact ⟨h.trans h'.symm, rfl⟩
    | some callback => exact ⟨rfl, rfl⟩

theorem headersEndingTurn_same (s : Parser φ ω) (ch : Byte) :
    (headersEndingTurn e hRes s ch).Same (headersEndingTurn e hRes' s ch) := by
  obtain ⟨hfail, hs⟩ := startFile_same (e := e) h h' s
  rw [headersEndingTurn, headersEndingTurn]
  dsimp only
  rw [← hs]
  cases hf : (startFile e hRes s).1.failed with
  | true =>
    rw [hf] at hfail
    simp only [← hfail, if_true]
    split_ifs <;> first | exact ⟨h, h', rfl⟩ | exact ⟨hf, hfail.symm, rfl⟩ | exact ⟨rfl, rfl, rfl⟩
  | false =>
    rw [hf] at hfail
    simp only [← hfail, Bool.false_eq_true, if_false]
    split_ifs <;> first | exact ⟨hf, hfail.symm, rfl⟩ | exact ⟨h, h', rfl⟩ | exact ⟨rfl, rfl, rfl⟩

theorem dataTurn_same (s : Parser φ ω) (ch : Byte) :
    (dataTurn e s hRes ch).Same (dataTurn e s hRes' ch) := by
  rw [dataTurn, dataTurn]
  split
  · exact ⟨h, h', rfl⟩
  split
  · exact ⟨h, h', rfl⟩
  cases accumulateData e s ch with
  | error nIndex => rfl
  | ok r =>
    cases hf : r.1.failed with
    | true => simpa only [hf, if_true] using ⟨hf, hf, rfl⟩
    | false => simpa only [hf, Bool.false_eq_true, if_false] using ⟨hf, hf, rfl⟩

/-- Bytes held back are accumulated the same, whatever the result before. -/
theorem accumulateAll_same (s : Parser φ ω) (l : List Byte) :
    match accumulateAll e hRes s l, accumulateAll e hRes' s l with
    | .error nIndex, .error nIndex' => nIndex = nIndex'
    | .ok r, .ok r' => SameResult r r'
    | _, _ => False := by
  cases l with
  | nil => exact ⟨h.trans h'.symm, rfl⟩
  | cons ch rest =>
    rw [accumulateAll, accumulateAll]
    cases accumulateData e s ch with
    | error nIndex => rfl
    | ok r =>
      dsimp only
      split_ifs
      · exact ⟨rfl, rfl⟩
      · cases accumulateAll e r.1 r.2 rest with
        | error nIndex => rfl
        | ok r' => exact ⟨rfl, rfl⟩

theorem mayBeDataEndTurn_same (s : Parser φ ω) (ch : Byte) :
    (mayBeDataEndTurn e hRes s ch).Same (mayBeDataEndTurn e hRes' s ch) := by
  have hall := accumulateAll_same (e := e) h h' s (heldBack e s)
  rw [mayBeDataEndTurn, mayBeDataEndTurn]
  split
  · cases hr : accumulateAll e hRes s (heldBack e s) with
    | error nIndex =>
      cases hr' : accumulateAll e hRes' s (heldBack e s) with
      | error nIndex' =>
        rw [hr, hr'] at hall
        exact hall
      | ok r' => rw [hr, hr'] at hall; exact hall.elim
    | ok r =>
      cases hr' : accumulateAll e hRes' s (heldBack e s) with
      | error nIndex' => rw [hr, hr'] at hall; exact hall.elim
      | ok r' =>
        rw [hr, hr'] at hall
        obtain ⟨hfail, hs⟩ := hall
        cases hf : r.1.failed with
        | true =>
          rw [hf] at hfail
          simpa only [hf, ← hfail, if_true] using ⟨hf, hfail.symm, hs⟩
        | false =>
          rw [hf] at hfail
          simpa only [hf, ← hfail, Bool.false_eq_true, if_false] using ⟨hf, hfail.symm, by rw [hs]⟩
  · split
    · cases hf : (addPart e s).1.failed with
      | true => simpa only [hf, if_true] using ⟨hf, hf, rfl⟩
      | false => simpa only [hf, Bool.false_eq_true, if_false] using ⟨hf, hf, rfl⟩
    · exact ⟨h, h', rfl⟩

theorem dataEndTurn_same (s : Parser φ ω) (ch : Byte) :
    (dataEndTurn hRes s ch).Same (dataEndTurn hRes' s ch) := by
  rw [dataEndTurn, dataEndTurn]
  split_ifs <;> exact ⟨h, h', rfl⟩

/-- **What a turn does to the parser does not depend on the result so far**, as long
as that is no failure. -/
theorem charTurn_same (s : Parser φ ω) (ch : Byte) :
    (charTurn e hRes s ch).Same (charTurn e hRes' s ch) := by
  rw [charTurn, charTurn]
  cases s.nState with
  | boundary => exact boundaryTurn_same h h' s ch
  | boundaryAfter =>
    dsimp only
    split
    · exact ⟨h, h', rfl⟩
    · exact blanksTurn_same h h' _ _ _
  | boundaryAfter2 => exact blanksTurn_same h h' _ _ _
  | boundaryAfterEnd => exact boundaryAfterEndTurn_same h h' s ch
  | boundaryEndCheck => exact expect_same h h' _ _ _
  | boundaryEndCheckAfterDashes => exact blanksTurn_same h h' _ _ _
  | boundaryEndCheckAfterDashes2 => exact expect_same h h' _ _ _
  | headerStart => exact headerStartTurn_same h h' s ch
  | headerName => exact headerNameTurn_same h h' s ch
  | headerValue => exact headerValueTurn_same h h' s ch
  | headerValueEnding => exact expect_same h h' _ _ _
  | headersEnding => exact headersEndingTurn_same h h' s ch
  | data => exact dataTurn_same h h' s ch
  | dataEnd => exact dataEndTurn_same h h' s ch
  | mayBeDataEnd => exact mayBeDataEndTurn_same h h' s ch
  | mayBeDataEndAlt => exact mayBeDataEndTurn_same h h' s ch
  | done => exact ⟨h, h', rfl⟩
  | error => exact ⟨h, h', rfl⟩

end Same

/-! ### A call and its characters -/

variable (e) in
/-- The parser after the loop that goes on from a cursor. -/
def Cursor.settle (c : Cursor φ ω) : Except Nat (Parser φ ω) :=
  (Loop.exec (parseTurn e) Cursor.measure (.error 0) c).map Prod.snd

theorem settle_nil {hRes : HResult} (h : hRes.failed = false) (s : Parser φ ω) :
    (⟨hRes, s, []⟩ : Cursor φ ω).settle e = .ok s := by
  have hturn : parseTurn e ⟨hRes, s, []⟩ = .inr (.ok (hRes, s)) := by simp [parseTurn, finish, h]
  rw [Cursor.settle, Loop.exec_inr _ hturn]
  rfl

theorem settle_inl {c c' : Cursor φ ω} (h : parseTurn e c = .inl c') :
    c.settle e = c'.settle e := by
  rw [Cursor.settle, Loop.exec_inl parseTurn_measure _ h, Cursor.settle]

theorem settle_inr {c : Cursor φ ω} {r : Except Nat (HResult × Parser φ ω)}
    (h : parseTurn e c = .inr r) : c.settle e = r.map Prod.snd := by
  rw [Cursor.settle, Loop.exec_inr _ h]

/-- A parser that is done, or has failed, takes no more characters. -/
def EState.inert : EState → Bool
  | .done | .error => true
  | _ => false

theorem parse_inert {s : Parser φ ω} (h : s.nState.inert = true) (szDataA : List Byte) :
    (parse e s (some szDataA)).map Prod.snd = .ok s := by
  rw [parse]
  cases hst : s.nState with
  | done => rfl
  | error => rfl
  | _ => rw [hst] at h; cases h

theorem parseChar_inert {s : Parser φ ω} (h : s.nState.inert = true) (ch : Byte) :
    parseChar e s ch = .ok s :=
  parse_inert h [ch]

theorem feed_inert {s : Parser φ ω} (h : s.nState.inert = true) (l : List Byte) :
    feed (parseChar e) s l = .ok s := by
  induction l with
  | nil => rfl
  | cons ch l ih => rw [feed_cons_ok (parseChar_inert h ch), ih]

theorem parseTurn_inert {s : Parser φ ω} (h : s.nState.inert = true) (hRes : HResult) (ch : Byte)
    (rest : List Byte) : parseTurn e ⟨hRes, s, ch :: rest⟩ = .inl ⟨hRes, s, rest⟩ := by
  have hturn : charTurn e hRes s ch = .next hRes s := by
    rw [charTurn]
    cases hst : s.nState with
    | done => rfl
    | error => rfl
    | _ => rw [hst] at h; cases h
  simp [parseTurn, hturn]

theorem parse_settle {s : Parser φ ω} (h : s.nState.inert = false) (szDataA : List Byte) :
    (parse e s (some szDataA)).map Prod.snd = (⟨.sOk, s, szDataA⟩ : Cursor φ ω).settle e := by
  have hdone : s.nState ≠ .done := fun hst => by rw [hst] at h; cases h
  have herror : s.nState ≠ .error := fun hst => by rw [hst] at h; cases h
  rw [parse_active hdone herror, Cursor.settle, Loop.exec_dflt parseTurn_measure]

/-- A turn on a character in a call of its own, by what the turn does in any call. -/
theorem parseChar_spec {s : Parser φ ω} (h : s.nState.inert = false) {hRes : HResult}
    (hok : hRes.failed = false) (ch : Byte) :
    match charTurn e hRes s ch with
    | .next hRes' s' => hRes'.failed = false ∧ parseChar e s ch = .ok s'
    | .again hRes' s' => hRes'.failed = false ∧ s'.nState.mayPushBack = 0 ∧
        ∃ hRes'' : HResult, hRes''.failed = false ∧
          parseChar e s ch = (⟨hRes'', s', [ch]⟩ : Cursor φ ω).settle e
    | .leave _ s' => parseChar e s ch = .ok { s' with nState := .error }
    | .overrun nIndex => parseChar e s ch = .error nIndex := by
  have hsame := charTurn_same (e := e) hok HResult.failed_sOk s ch
  have hback := charTurn_pushesBack (e := e) hRes s ch
  rw [parseChar, parse_settle h]
  cases hturn : charTurn e hRes s ch with
  | next hRes' s' =>
    cases hturn' : charTurn e .sOk s ch with
    | next hRes'' s'' =>
      rw [hturn, hturn'] at hsame
      obtain ⟨hf, hf', rfl⟩ := hsame
      have hinl : parseTurn e ⟨.sOk, s, [ch]⟩ = .inl ⟨hRes'', s', []⟩ := by simp [parseTurn, hturn']
      exact ⟨hf, by rw [settle_inl hinl, settle_nil hf']⟩
    | _ => rw [hturn, hturn'] at hsame; exact hsame.elim
  | again hRes' s' =>
    cases hturn' : charTurn e .sOk s ch with
    | again hRes'' s'' =>
      rw [hturn, hturn'] at hsame
      rw [hturn] at hback
      obtain ⟨hf, hf', rfl⟩ := hsame
      have hinl : parseTurn e ⟨.sOk, s, [ch]⟩ = .inl ⟨hRes'', s', [ch]⟩ := by
        simp [parseTurn, hturn']
      exact ⟨hf, hback.2, hRes'', hf', settle_inl hinl⟩
    | _ => rw [hturn, hturn'] at hsame; exact hsame.elim
  | leave hRes' s' =>
    cases hturn' : charTurn e .sOk s ch with
    | leave hRes'' s'' =>
      rw [hturn, hturn'] at hsame
      obtain ⟨-, hf', rfl⟩ := hsame
      have hinr : parseTurn e ⟨.sOk, s, [ch]⟩ = .inr (.ok (finish hRes'' s')) := by
        simp [parseTurn, hturn']
      dsimp only
      rw [settle_inr hinr]
      simp [finish, hf', Except.map]
    | _ => rw [hturn, hturn'] at hsame; exact hsame.elim
  | overrun nIndex =>
    cases hturn' : charTurn e .sOk s ch with
    | overrun nIndex' =>
      rw [hturn, hturn'] at hsame
      obtain rfl : nIndex = nIndex' := hsame
      have hinr : parseTurn e ⟨.sOk, s, [ch]⟩ = .inr (.error nIndex) := by simp [parseTurn, hturn']
      dsimp only
      rw [settle_inr hinr]
      rfl
    | _ => rw [hturn, hturn'] at hsame; exact hsame.elim

/-- **The loop does with a buffer what calls with its characters do.** -/
theorem settle_eq_feed (c : Cursor φ ω) (hok : c.hRes.failed = false) :
    c.settle e = feed (parseChar e) c.s c.szDataA := by
  generalize hk : c.measure = k
  induction k using Nat.strongRecOn generalizing c with
  | ind k ih =>
    obtain ⟨hRes, s, szDataA⟩ := c
    cases szDataA with
    | nil => exact settle_nil hok s
    | cons ch rest =>
      have hdrop := fun c' h => hk ▸ parseTurn_measure (e := e) ⟨hRes, s, ch :: rest⟩ c' h
      cases hin : s.nState.inert with
      | true =>
        have hinl := parseTurn_inert (e := e) hin hRes ch rest
        rw [settle_inl hinl, ih _ (hdrop _ hinl) ⟨hRes, s, rest⟩ hok rfl,
          feed_cons_ok (parseChar_inert hin ch)]
      | false =>
        have hspec := parseChar_spec (e := e) hin hok ch
        cases hturn : charTurn e hRes s ch with
        | next hRes' s' =>
          rw [hturn] at hspec
          have hinl : parseTurn e ⟨hRes, s, ch :: rest⟩ = .inl ⟨hRes', s', rest⟩ := by
            simp [parseTurn, hturn]
          rw [settle_inl hinl, ih _ (hdrop _ hinl) ⟨hRes', s', rest⟩ hspec.1 rfl,
            feed_cons_ok hspec.2]
        | again hRes' s' =>
          rw [hturn] at hspec
          obtain ⟨hf, -, hRes'', hf'', hchar⟩ := hspec
          have hinl : parseTurn e ⟨hRes, s, ch :: rest⟩ = .inl ⟨hRes', s', ch :: rest⟩ := by
            simp [parseTurn, hturn]
          have hless := hdrop _ hinl
          have hone : (⟨hRes'', s', [ch]⟩ : Cursor φ ω).measure < k := by
            refine lt_of_le_of_lt ?_ hless
            simp only [Cursor.measure, List.length_cons, List.length_nil]
            omega
          rw [ih _ hone ⟨hRes'', s', [ch]⟩ hf'' rfl, feed_singleton] at hchar
          rw [settle_inl hinl, ih _ hless ⟨hRes', s', ch :: rest⟩ hf rfl, feed, feed, hchar]
        | leave hRes' s' =>
          have hsame := charTurn_same (e := e) hok hok s ch
          rw [hturn] at hspec hsame
          have hinr : parseTurn e ⟨hRes, s, ch :: rest⟩ = .inr (.ok (finish hRes' s')) := by
            simp [parseTurn, hturn]
          rw [settle_inr hinr, feed_cons_ok hspec, feed_inert rfl]
          simp [finish, hsame.1, Except.map]
        | overrun nIndex =>
          rw [hturn] at hspec
          have hinr : parseTurn e ⟨hRes, s, ch :: rest⟩ = .inr (.error nIndex) := by
            simp [parseTurn, hturn]
          rw [settle_inr hinr, feed_cons_error hspec]
          rfl

/-- A character that is looked at again is like one that comes now. -/
theorem parseChar_again {s s' : Parser φ ω} (h : s.nState.inert = false) {hRes hRes' : HResult}
    (hok : hRes.failed = false) {ch : Byte} (hturn : charTurn e hRes s ch = .again hRes' s') :
    hRes'.failed = false ∧ s'.nState.mayPushBack = 0 ∧
      parseChar e s ch = parseChar e s' ch := by
  have hspec := parseChar_spec (e := e) h hok ch
  rw [hturn] at hspec
  obtain ⟨hf, hback, hRes'', hf'', hchar⟩ := hspec
  rw [settle_eq_feed _ hf'', feed_singleton] at hchar
  exact ⟨hf, hback, hchar⟩

/-- **A call with a buffer does what calls with its characters do.** -/
theorem parse_eq_feed (s : Parser φ ω) (szDataA : List Byte) :
    (parse e s (some szDataA)).map Prod.snd = feed (parseChar e) s szDataA := by
  cases hin : s.nState.inert with
  | true => rw [parse_inert hin, feed_inert hin]
  | false => rw [parse_settle hin, settle_eq_feed _ rfl]

/-- **Where the body is cut into buffers does not matter.** -/
theorem parseCalls_eq_feed (bufs : List (List Byte)) (s : Parser φ ω) :
    parseCalls e s (bufs.map some) = feed (parseChar e) s bufs.flatten := by
  rw [← feed_flatten]
  induction bufs generalizing s with
  | nil => rfl
  | cons szDataA bufs ih =>
    rw [List.map_cons]
    have hparse := parse_eq_feed (e := e) s szDataA
    cases h : parse e s (some szDataA) with
    | error nIndex =>
      rw [h] at hparse
      rw [parseCalls_cons_error h, feed_cons_error hparse.symm]
    | ok r =>
      rw [h] at hparse
      rw [parseCalls_cons_ok h, feed_cons_ok hparse.symm, ih]

/-! ### The turns of a run -/

/-- A character that does not end in a failure is read in some turns of any call. -/
theorem reach_of_parseChar {s s' : Parser φ ω} {ch : Byte} (h : parseChar e s ch = .ok s')
    (hne : s'.nState ≠ .error) {hRes : HResult} (hok : hRes.failed = false) (rest : List Byte) :
    ∃ hRes' : HResult, hRes'.failed = false ∧
      Loop.Reach (parseTurn e) ⟨hRes, s, ch :: rest⟩ ⟨hRes', s', rest⟩ := by
  generalize hk : s.nState.mayPushBack = k
  induction k using Nat.strongRecOn generalizing s hRes with
  | ind k ih =>
    cases hin : s.nState.inert with
    | true =>
      rw [parseChar_inert hin] at h
      obtain rfl := Except.ok.inj h
      exact ⟨hRes, hok, .single (parseTurn_inert hin hRes ch rest)⟩
    | false =>
      have hspec := parseChar_spec (e := e) hin hok ch
      have hback := charTurn_pushesBack (e := e) hRes s ch
      cases hturn : charTurn e hRes s ch with
      | next hRes' s₁ =>
        rw [hturn] at hspec
        obtain rfl := Except.ok.inj (h.symm.trans hspec.2)
        refine ⟨hRes', hspec.1, .single ?_⟩
        simp [Loop.Turn, parseTurn, hturn]
      | again hRes' s₁ =>
        rw [hturn] at hback
        obtain ⟨hf, hzero, hchar⟩ := parseChar_again hin hok hturn
        obtain ⟨hRes'', hf'', hreach⟩ :=
          ih 0 (by rw [← hk, hback.1]; exact Nat.one_pos) (hchar.symm.trans h) hf hzero
        refine ⟨hRes'', hf'', .head ?_ hreach⟩
        simp [Loop.Turn, parseTurn, hturn]
      | leave hRes' s₁ =>
        rw [hturn] at hspec
        obtain rfl := Except.ok.inj (h.symm.trans hspec)
        exact absurd rfl hne
      | overrun nIndex =>
        rw [hturn] at hspec
        rw [hspec] at h
        cases h

theorem ne_error_of_feed {s s' : Parser φ ω} {l : List Byte} (h : feed (parseChar e) s l = .ok s')
    (hne : s'.nState ≠ .error) : s.nState ≠ .error := by
  intro hst
  rw [feed_inert (by rw [hst]; rfl)] at h
  obtain rfl := Except.ok.inj h
  exact hne hst

theorem reach_of_feed {l : List Byte} : ∀ {s s' : Parser φ ω} (hRes : HResult) (rest : List Byte),
    feed (parseChar e) s l = .ok s' → s'.nState ≠ .error → hRes.failed = false →
    ∃ hRes' : HResult, hRes'.failed = false ∧
      Loop.Reach (parseTurn e) ⟨hRes, s, l ++ rest⟩ ⟨hRes', s', rest⟩ := by
  induction l with
  | nil =>
    intro s s' hRes rest h _ hok
    obtain rfl := Except.ok.inj h
    exact ⟨hRes, hok, .refl⟩
  | cons ch l ih =>
    intro s s' hRes rest h hne hok
    cases hchar : parseChar e s ch with
    | error nIndex =>
      rw [feed_cons_error hchar] at h
      cases h
    | ok s₁ =>
      rw [feed_cons_ok hchar] at h
      obtain ⟨hRes₁, hok₁, hreach₁⟩ :=
        reach_of_parseChar hchar (ne_error_of_feed h hne) hok (l ++ rest)
      obtain ⟨hRes', hok', hreach'⟩ := ih hRes₁ rest h hne hok₁
      exact ⟨hRes', hok', hreach₁.trans hreach'⟩

/-- **Each character of a body is looked at in a turn**, by the parser that the
characters before it lead to. -/
theorem exists_turnAt {l rest : List Byte} {ch : Byte} {s' : Parser φ ω}
    (hin : s'.nState.inert = false) : ∀ {bufs : List (List Byte)} {s : Parser φ ω},
    bufs.flatten = l ++ ch :: rest → feed (parseChar e) s l = .ok s' →
    ∃ hRes rest', TurnAt e s bufs l.length ⟨hRes, s', ch :: rest'⟩ := by
  have hne : s'.nState ≠ .error := fun hst => by rw [hst] at hin; cases hin
  intro bufs
  induction bufs generalizing l with
  | nil =>
    intro s hbufs
    simp at hbufs
  | cons szDataA bufs ih =>
    intro s hbufs hfeed
    rw [List.flatten_cons] at hbufs
    rcases le_or_gt szDataA.length l.length with hle | hlt
    · -- the buffer ends before the character
      obtain ⟨l', rfl⟩ := List.prefix_of_prefix_length_le ⟨_, hbufs⟩ (List.prefix_append _ _) hle
      rw [List.append_assoc, List.append_cancel_left_eq] at hbufs
      have heq := parse_eq_feed (e := e) s szDataA
      cases hparse : parse e s (some szDataA) with
      | error nIndex =>
        rw [hparse] at heq
        rw [feed_append_error heq.symm] at hfeed
        cases hfeed
      | ok r =>
        rw [hparse] at heq
        rw [feed_append heq.symm] at hfeed
        obtain ⟨hRes, rest', hturn⟩ := ih hbufs hfeed
        rw [List.length_append]
        exact ⟨hRes, rest', .call hparse hturn⟩
    · obtain ⟨m, rfl⟩ :=
        List.prefix_of_prefix_length_le ⟨_, hbufs.symm⟩ (List.prefix_append _ _) hlt.le
      rw [List.append_assoc, List.append_cancel_left_eq] at hbufs
      cases m with
      | nil => simp at hlt
      | cons ch' m =>
        obtain ⟨rfl, -⟩ := List.cons.inj hbufs
        obtain ⟨hRes, -, hreach⟩ := reach_of_feed .sOk (ch' :: m) hfeed hne rfl
        have hs : s.nState.inert = false := by
          cases hst : s.nState.inert with
          | false => rfl
          | true =>
            rw [feed_inert hst] at hfeed
            obtain rfl := Except.ok.inj hfeed
            exact absurd (hst.symm.trans hin) (by decide)
        have hn : l.length = (l ++ ch' :: m).length - (ch' :: m).length := by
          rw [List.length_append, Nat.add_sub_cancel]
        refine ⟨hRes, m, ?_⟩
        rw [hn]
        exact .turn (fun h => by rw [h] at hs; cases hs) (fun h => by rw [h] at hs; cases hs) hreach

variable (e) in
/-- A turn looks at the parser `s₀`, or looks again at a character that `s₀` has not
taken. -/
def Follows (s₀ : Parser φ ω) (c : Cursor φ ω) : Prop :=
  c.s = s₀ ∨ c.s.nState.mayPushBack = 0 ∧
    ∃ ch rest, c.szDataA = ch :: rest ∧ parseChar e s₀ ch = parseChar e c.s ch

theorem Follows.parseChar_eq {s₀ : Parser φ ω} {c : Cursor φ ω} (h : Follows e s₀ c) {ch : Byte}
    {rest : List Byte} (hc : c.szDataA = ch :: rest) :
    parseChar e s₀ ch = parseChar e c.s ch := by
  rcases h with h | ⟨-, ch', rest', hc', hchar⟩
  · rw [h]
  · obtain ⟨rfl, -⟩ := List.cons.inj (hc.symm.trans hc')
    exact hchar

/-- The turns of a call follow what the characters before them lead to. -/
theorem follows_of_reach {s : Parser φ ω} {szDataA : List Byte} {c : Cursor φ ω}
    (h : Loop.Reach (parseTurn e) ⟨.sOk, s, szDataA⟩ c) :
    c.hRes.failed = false ∧ ∃ l s₀, szDataA = l ++ c.szDataA ∧
      feed (parseChar e) s l = .ok s₀ ∧ Follows e s₀ c := by
  induction h with
  | refl => exact ⟨rfl, [], s, rfl, rfl, Or.inl rfl⟩
  | @tail c₁ c₂ _ hturn ih =>
    obtain ⟨hok, l, s₀, hl, hfeed, hfollows⟩ := ih
    obtain ⟨hRes, s₁, szDataA₁⟩ := c₁
    cases szDataA₁ with
    | nil => simp [Loop.Turn, parseTurn] at hturn
    | cons ch rest =>
      have hchar : parseChar e s₀ ch = parseChar e s₁ ch := hfollows.parseChar_eq rfl
      cases hin : s₁.nState.inert with
      | true =>
        obtain rfl := Sum.inl.inj ((parseTurn_inert hin hRes ch rest).symm.trans hturn)
        refine ⟨hok, l ++ [ch], s₁, by rw [hl, List.append_assoc]; rfl, ?_, Or.inl rfl⟩
        rw [feed_append hfeed, feed_singleton, hchar, parseChar_inert hin]
      | false =>
        have hspec := parseChar_spec (e := e) hin hok ch
        simp only [Loop.Turn, parseTurn] at hturn
        cases hch : charTurn e hRes s₁ ch with
        | next hRes' s' =>
          rw [hch] at hturn hspec
          obtain rfl := Sum.inl.inj hturn
          refine ⟨hspec.1, l ++ [ch], s', by rw [hl, List.append_assoc]; rfl, ?_, Or.inl rfl⟩
          rw [feed_append hfeed, feed_singleton, hchar, hspec.2]
        | again hRes' s' =>
          obtain ⟨hf, hzero, hagain⟩ := parseChar_again hin hok hch
          rw [hch] at hturn
          obtain rfl := Sum.inl.inj hturn
          exact ⟨hf, l, s₀, hl, hfeed, Or.inr ⟨hzero, ch, rest, rfl, hchar.trans hagain⟩⟩
        | leave hRes' s' => rw [hch] at hturn; cases hturn
        | overrun nIndex => rw [hch] at hturn; cases hturn

/-- **A turn at a character follows what the characters before it lead to**, however
the body is cut. -/
theorem follows_of_turnAt {s : Parser φ ω} {bufs : List (List Byte)} {n : Nat} {c : Cursor φ ω}
    (h : TurnAt e s bufs n c) :
    c.szDataA <+: bufs.flatten.drop n ∧
      ∃ s₀, feed (parseChar e) s (bufs.flatten.take n) = .ok s₀ ∧ Follows e s₀ c := by
  induction h with
  | @turn s szDataA bufs c hdone herror hreach =>
    obtain ⟨-, l, s₀, hl, hfeed, hfollows⟩ := follows_of_reach hreach
    have hcut : (szDataA :: bufs).flatten = l ++ (c.szDataA ++ bufs.flatten) := by
      rw [List.flatten_cons, ← List.append_assoc, ← hl]
    have hn : szDataA.length - c.szDataA.length = l.length := by
      rw [hl, List.length_append, Nat.add_sub_cancel]
    rw [hn, hcut, List.drop_left, List.take_left]
    exact ⟨List.prefix_append _ _, s₀, hfeed, hfollows⟩
  | @call s s' szDataA hRes bufs n c hparse _ ih =>
    obtain ⟨hrest, s₀, hfeed, hfollows⟩ := ih
    have heq := parse_eq_feed (e := e) s szDataA
    rw [hparse] at heq
    rw [List.flatten_cons, List.drop_length_add_append, List.take_length_add_append,
      feed_append heq.symm]
    exact ⟨hrest, s₀, hfeed, hfollows⟩

/-- **An invariant of the turns that holds of every failed parser holds after each
character.** -/
theorem parseChar_keeps {Inv : Parser φ ω → Prop} (herror : ∀ s, s.nState = .error → Inv s)
    (hnext : ∀ s ch hRes' s', Inv s → charTurn e .sOk s ch = .next hRes' s' → Inv s')
    (hagain : ∀ s ch hRes' s', Inv s → charTurn e .sOk s ch = .again hRes' s' → Inv s')
    {s s' : Parser φ ω} {ch : Byte} (hs : Inv s) (h : parseChar e s ch = .ok s') : Inv s' := by
  generalize hk : s.nState.mayPushBack = k
  induction k using Nat.strongRecOn generalizing s with
  | ind k ih =>
    cases hin : s.nState.inert with
    | true =>
      rw [parseChar_inert hin] at h
      obtain rfl := Except.ok.inj h
      exact hs
    | false =>
      have hspec := parseChar_spec (e := e) hin HResult.failed_sOk ch
      have hback := charTurn_pushesBack (e := e) .sOk s ch
      cases hturn : charTurn e .sOk s ch with
      | next hRes' s₁ =>
        rw [hturn] at hspec
        obtain rfl := Except.ok.inj (h.symm.trans hspec.2)
        exact hnext s ch hRes' s' hs hturn
      | again hRes' s₁ =>
        rw [hturn] at hback
        obtain ⟨-, hzero, hchar⟩ := parseChar_again hin rfl hturn
        exact ih 0 (by rw [← hk, hback.1]; exact Nat.one_pos) (hagain s ch hRes' s₁ hs hturn)
          (hchar.symm.trans h) hzero
      | leave hRes' s₁ =>
        rw [hturn] at hspec
        obtain rfl := Except.ok.inj (h.symm.trans hspec)
        exact herror _ rfl
      | overrun nIndex =>
        rw [hturn] at hspec
        rw [hspec] at h
        cases h

end Stream

end MxLib.Http.Multipart
