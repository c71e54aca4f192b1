import MxLib.Http.HttpParser

/-!
# The loop of `Parse` gets on

A turn of the loop goes on to a later character, or it stays at its character and
changes to a state that does not stay (`Turn.Sound`): a new message has no line yet, a
blank continues the value of a header, the body starts, or a chunk has nothing left.
So a character is looked at twice at most, and the loop is left.  It is left in front of
the end of the buffer only where the headers or the message end, or where the call
fails (`progress`).
-/

namespace MxLib.Http.HttpParser

open MxLib.Library

variable {e : ParserEnv}

/-! ### One character -/

/-- What a turn in `nState` may do when there are `nLeft` characters. -/
def Turn.Sound (nState : EState) (nLeft : Nat) : Turn e → Prop
  | .move n p => n = 1 ∨ (n = 0 ∧ nState.mayStay = 1 ∧ p.nState.mayStay = 0)
  | .leave n p => n = 1 ∧ (p.nState = .bodyStart ∨ p.nState = .done)
  | .fail _ n _ => n ≤ 1
  | .content n p => n ≤ nLeft ∧ (n = 0 → nState.mayStay = 1 ∧ p.nState.mayStay = 0)
  | .lastContent n p => n ≤ nLeft ∧ p.nState = .done
  | .flush p => p.nState = .done

section Sound

variable {nState : EState} {nLeft : Nat}

theorem sound_next (p : Parser e) : (Turn.next p).Sound nState nLeft := Or.inl rfl

theorem sound_fail (hRes : HResult) (p : Parser e) : (Turn.fail hRes 0 p).Sound nState nLeft :=
  Nat.zero_le 1

theorem sound_expect (ok : Bool) (p : Parser e) (nNext : EState) :
    (expect ok p nNext).Sound nState nLeft := by
  cases ok with
  | true => exact sound_next _
  | false => exact sound_fail _ p

theorem sound_addToLine (nMaxLength : Nat) (p : Parser e) (ch : Byte) :
    (addToLine nMaxLength p ch).Sound nState nLeft := by
  rw [addToLine]
  split
  · exact sound_fail _ p
  · exact sound_next _

theorem sound_startTurn (p : Parser e) (ch : Byte) : (startTurn p ch).Sound .start nLeft := by
  rw [startTurn]
  split
  · exact sound_next p
  · exact Or.inr ⟨rfl, rfl, rfl⟩

theorem sound_requestOrStatusLineTurn (p : Parser e) (ch : Byte) :
    (requestOrStatusLineTurn p ch).Sound nState nLeft := by
  rw [requestOrStatusLineTurn]
  split_ifs
  · exact sound_next _
  · exact sound_fail _ p
  · exact sound_addToLine _ p ch

theorem sound_requestOrStatusLineEndingTurn (p : Parser e) (ch : Byte) :
    (requestOrStatusLineEndingTurn p ch).Sound nState nLeft := by
  rw [requestOrStatusLineEndingTurn]
  split_ifs
  · exact sound_fail _ p
  · cases parseFirstLine p p.cStrCurrLineA with
    | error hRes => exact sound_fail hRes p
    | ok q => exact sound_next _

theorem sound_headerNameTurn (p : Parser e) (ch : Byte) :
    (headerNameTurn p ch).Sound nState nLeft := by
  simp only [headerNameTurn]
  split_ifs
  · exact sound_fail _ p
  · exact sound_fail _ _
  · exact sound_next _
  · exact sound_fail _ _
  · exact sound_addToLine _ _ ch

theorem sound_headerStartTurn (p : Parser e) (ch : Byte) :
    (headerStartTurn p ch).Sound .headerStart nLeft := by
  rw [headerStartTurn]
  split_ifs
  · cases endHeaderLine p with
    | error hRes => exact sound_fail hRes p
    | ok q => exact sound_next _
  · exact sound_fail _ p
  · exact Or.inr ⟨rfl, rfl, rfl⟩
  · cases endHeaderLine p with
    | error hRes => exact sound_fail hRes p
    | ok q => exact sound_headerNameTurn _ ch

theorem sound_headerValueTurn (p : Parser e) (ch : Byte) :
    (headerValueTurn p ch).Sound nState nLeft := by
  simp only [headerValueTurn]
  split_ifs
  · exact sound_fail _ p
  · exact sound_next _
  · exact sound_fail _ _
  · exact sound_addToLine _ _ ch

theorem bodyOrDone_state (p : Parser e) :
    (bodyOrDone p).nState = .bodyStart ∨ (bodyOrDone p).nState = .done := by
  rw [bodyOrDone]
  split_ifs
  · exact Or.inr rfl
  · exact Or.inl rfl
  · exact Or.inr rfl
  · exact Or.inl rfl

theorem sound_headersEndingTurn (p : Parser e) (ch : Byte) :
    (headersEndingTurn p ch).Sound nState nLeft := by
  rw [headersEndingTurn, requestHeadersEnd, responseHeadersEnd]
  split_ifs
  · exact sound_fail _ p
  · exact Nat.le_refl 1
  · exact ⟨rfl, Or.inr rfl⟩
  · exact Nat.le_refl 1
  · exact ⟨rfl, bodyOrDone_state p⟩
  · exact Nat.le_refl 1
  · exact ⟨rfl, Or.inr rfl⟩
  · exact ⟨rfl, bodyOrDone_state p⟩

theorem sound_bodyStartTurn (p : Parser e) : (bodyStartTurn p).Sound .bodyStart nLeft := by
  refine Or.inr ⟨rfl, rfl, ?_⟩
  dsimp only
  split <;> rfl

/-- The difference is zero only where there is none. -/
theorem eq_of_min_sub_eq_zero {n m : UInt64} (hleft : 0 < nLeft)
    (h : min nLeft (n - m).toNat = 0) : m + UInt64.ofNat 0 = n := by
  have hzero : (n - m).toNat = 0 := by omega
  have hsub : n - m = 0 := UInt64.toNat_inj.mp hzero
  have heq : m + (n - m) = n := by rw [UInt64.add_comm, UInt64.sub_add_cancel]
  rw [hsub] at heq
  exact heq

theorem sound_identityBodyStartTurn (p : Parser e) (hleft : 0 < nLeft) :
    (identityBodyStartTurn p nLeft).Sound nState nLeft := by
  rw [identityBodyStartTurn]
  split
  · exact ⟨Nat.min_le_left _ _, rfl⟩
  · rename_i hne
    refine ⟨Nat.min_le_left _ _, fun h => absurd ?_ hne⟩
    dsimp only
    rw [h]
    exact eq_of_min_sub_eq_zero hleft h

theorem sound_chunkStartTurn (p : Parser e) (ch : Byte) :
    (chunkStartTurn p ch).Sound nState nLeft := by
  rw [chunkStartTurn]
  cases chunkDigit ch with
  | some nDigit =>
    dsimp only
    split
    · exact sound_fail _ p
    · exact sound_next _
  | none =>
    dsimp only
    split
    · exact sound_next _
    · exact sound_expect _ p _

theorem sound_chunkPreStartTurn (p : Parser e) (ch : Byte) :
    (chunkPreStartTurn p ch).Sound nState nLeft := by
  rw [chunkPreStartTurn]
  split
  · exact sound_fail _ p
  · exact sound_chunkStartTurn _ ch

theorem sound_chunkStartEndingTurn (p : Parser e) (ch : Byte) :
    (chunkStartEndingTurn p ch).Sound nState nLeft := by
  rw [chunkStartEndingTurn]
  split_ifs
  · exact sound_fail _ p
  · exact rfl
  · exact sound_next _

theorem sound_chunkDataTurn (p : Parser e) (hleft : 0 < nLeft) :
    (chunkDataTurn p nLeft).Sound .chunkData nLeft := by
  refine ⟨Nat.min_le_left _ _, fun h => ⟨rfl, ?_⟩⟩
  dsimp only
  rw [h, if_pos (eq_of_min_sub_eq_zero hleft h)]
  rfl

theorem sound_chunkAfterDataTurn (p : Parser e) (ch : Byte) :
    (chunkAfterDataTurn p ch).Sound nState nLeft := by
  rw [chunkAfterDataTurn]
  split
  · exact sound_next _
  · exact sound_expect _ p _

/-- **A turn goes on, or it stays and changes to a state that does not.** -/
theorem charTurn_sound (p : Parser e) (ch : Byte) (hleft : 0 < nLeft) :
    (charTurn p ch nLeft).Sound p.nState nLeft := by
  rw [charTurn]
  cases hstate : p.nState with
  | start => exact sound_startTurn p ch
  | requestOrStatusLine => exact sound_requestOrStatusLineTurn p ch
  | requestOrStatusLineEnding => exact sound_requestOrStatusLineEndingTurn p ch
  | headerStart => exact sound_headerStartTurn p ch
  | headerName => exact sound_headerNameTurn p ch
  | headerValue => exact sound_headerValueTurn p ch
  | headerValueEnding => exact sound_expect _ p _
  | headersEnding => exact sound_headersEndingTurn p ch
  | bodyStart => exact sound_bodyStartTurn p
  | identityBodyStart => exact sound_identityBodyStartTurn p hleft
  | chunkPreStart => exact sound_chunkPreStartTurn p ch
  | chunkStart => exact sound_chunkStartTurn p ch
  | chunkStartEnding => exact sound_chunkStartEndingTurn p ch
  | chunkStartIgnoreExtension => exact sound_next _
  | chunkData => exact sound_chunkDataTurn p hleft
  | chunkAfterData => exact sound_chunkAfterDataTurn p ch
  | nearEndOfChunkAfterData => exact sound_expect _ p _
  | done => exact sound_next p
  | error => exact sound_next p

end Sound

/-! ### One turn of the loop -/

section Turn

variable {r : Receiver e}

/-- What has been used and what is left of the buffer is the buffer. -/
def Cursor.Within (lpData : List Byte) (c : Cursor r) : Prop :=
  c.nDataUsed ≤ lpData.length ∧ c.szDataA = lpData.drop c.nDataUsed

theorem Cursor.Within.length {lpData : List Byte} {c : Cursor r} (h : c.Within lpData) :
    c.nDataUsed + c.szDataA.length = lpData.length := by
  have hle := h.1
  rw [h.2, List.length_drop]
  omega

theorem Cursor.Within.drop {lpData : List Byte} {c : Cursor r} (h : c.Within lpData)
    {n : Nat} (hn : n ≤ c.szDataA.length) (s : Session r) :
    Cursor.Within lpData ⟨s, c.szDataA.drop n, c.nDataUsed + n⟩ := by
  have hlen := h.length
  refine ⟨by dsimp only; omega, ?_⟩
  dsimp only
  rw [h.2, List.drop_drop]

/-- What a turn that goes on does. -/
inductive Goes (c c' : Cursor r) (ch : Byte) (rest : List Byte) : Prop
  | move (n : Nat) (p : Parser e) : charTurn c.s.p ch (rest.length + 1) = .move n p →
    c' = ⟨{ c.s with p := p }, c.szDataA.drop n, c.nDataUsed + n⟩ → Goes c c' ch rest
  | content (n : Nat) (p : Parser e) (s : Session r) :
    charTurn c.s.p ch (rest.length + 1) = .content n p →
    c' = ⟨{ s with p := p }, c.szDataA.drop n, c.nDataUsed + n⟩ → Goes c c' ch rest

theorem parseTurn_goes {c c' : Cursor r} (h : parseTurn c = .inl c') :
    ∃ ch rest, c.szDataA = ch :: rest ∧ Goes c c' ch rest := by
  rw [parseTurn] at h
  cases hdata : c.szDataA with
  | nil => rw [hdata] at h; cases h
  | cons ch rest =>
    refine ⟨ch, rest, rfl, ?_⟩
    rw [hdata] at h
    dsimp only at h
    cases hturn : charTurn c.s.p ch (rest.length + 1) with
    | move n p =>
      rw [hturn, ← hdata] at h
      exact .move n p hturn (Sum.inl.inj h).symm
    | content n p =>
      rw [hturn, ← hdata] at h
      dsimp only at h
      cases hproc : c.s.process (c.szDataA.take n) with
      | error err => rw [hproc] at h; cases h
      | ok s =>
        rw [hproc] at h
        exact .content n p s hturn (Sum.inl.inj h).symm
    | lastContent n p =>
      rw [hturn] at h
      dsimp only at h
      cases hproc : c.s.process ((ch :: rest).take n) <;> rw [hproc] at h <;> cases h
    | leave n p => rw [hturn] at h; cases h
    | fail hRes n p => rw [hturn] at h; cases h
    | flush p => rw [hturn] at h; cases h

/-- What a turn that ends the call does, in front of a character. -/
inductive Ends (c : Cursor r) (out : Parsed r) (ch : Byte) (rest : List Byte) : Prop
  | leave (n : Nat) (p : Parser e) : charTurn c.s.p ch (rest.length + 1) = .leave n p →
    out = ⟨.sOk, { c.s with p := p }, c.nDataUsed + n⟩ → Ends c out ch rest
  | fail (hRes : HResult) (n : Nat) (p : Parser e) :
    charTurn c.s.p ch (rest.length + 1) = .fail hRes n p →
    out = failWith hRes { c.s with p := p } (c.nDataUsed + n) → Ends c out ch rest
  | reject (err : Fault) (passed : List Byte) :
    out = reject err { c.s with passed := passed } c.nDataUsed → Ends c out ch rest
  | lastContent (n : Nat) (p : Parser e) (s : Session r) :
    charTurn c.s.p ch (rest.length + 1) = .lastContent n p →
    out = endMessage s p (c.nDataUsed + n) → Ends c out ch rest
  | flush (p : Parser e) : charTurn c.s.p ch (rest.length + 1) = .flush p →
    out = endMessage c.s p c.nDataUsed → Ends c out ch rest

theorem parseTurn_ends {c : Cursor r} {out : Parsed r} (h : parseTurn c = .inr out) :
    c.szDataA = [] ∧ out = ⟨.sOk, c.s, c.nDataUsed⟩ ∨
      ∃ ch rest, c.szDataA = ch :: rest ∧ Ends c out ch rest := by
  rw [parseTurn] at h
  cases hdata : c.szDataA with
  | nil =>
    rw [hdata] at h
    exact Or.inl ⟨rfl, (Sum.inr.inj h).symm⟩
  | cons ch rest =>
    refine Or.inr ⟨ch, rest, rfl, ?_⟩
    rw [hdata] at h
    dsimp only at h
    cases hturn : charTurn c.s.p ch (rest.length + 1) with
    | move n p => rw [hturn] at h; cases h
    | leave n p =>
      rw [hturn] at h
      exact .leave n p hturn (Sum.inr.inj h).symm
    | fail hRes n p =>
      rw [hturn] at h
      exact .fail hRes n p hturn (Sum.inr.inj h).symm
    | content n p =>
      rw [hturn] at h
      dsimp only at h
      cases hproc : c.s.process ((ch :: rest).take n) with
      | error err =>
        rw [hproc] at h
        exact .reject err _ (Sum.inr.inj h).symm
      | ok s => rw [hproc] at h; cases h
    | lastContent n p =>
      rw [hturn] at h
      dsimp only at h
      cases hproc : c.s.process ((ch :: rest).take n) with
      | error err =>
        rw [hproc] at h
        exact .reject err _ (Sum.inr.inj h).symm
      | ok s =>
        rw [hproc] at h
        exact .lastContent n p s hturn (Sum.inr.inj h).symm
    | flush p =>
      rw [hturn] at h
      exact .flush p hturn (Sum.inr.inj h).symm

/-- How far a turn goes on. -/
theorem parseTurn_inl {c c' : Cursor r} (h : parseTurn c = .inl c') :
    ∃ n, n ≤ c.szDataA.length ∧ c'.szDataA = c.szDataA.drop n ∧
      c'.nDataUsed = c.nDataUsed + n ∧ c.szDataA ≠ [] ∧
      (n = 0 → c.s.p.nState.mayStay = 1 ∧ c'.s.p.nState.mayStay = 0) := by
  obtain ⟨ch, rest, hdata, hgoes⟩ := parseTurn_goes h
  have hne : c.szDataA ≠ [] := by rw [hdata]; exact List.cons_ne_nil _ _
  have hlen : c.szDataA.length = rest.length + 1 := by rw [hdata, List.length_cons]
  have hsound := charTurn_sound c.s.p ch (Nat.succ_pos rest.length)
  cases hgoes with
  | move n p hturn hc' =>
    subst hc'
    rw [hturn] at hsound
    rcases hsound with rfl | ⟨rfl, hstay, hgone⟩
    · exact ⟨1, by omega, rfl, rfl, hne, fun h => absurd h (by decide)⟩
    · exact ⟨0, Nat.zero_le _, rfl, rfl, hne, fun _ => ⟨hstay, hgone⟩⟩
  | content n p s hturn hc' =>
    subst hc'
    rw [hturn] at hsound
    exact ⟨n, by rw [hlen]; exact hsound.1, rfl, rfl, hne, hsound.2⟩

theorem parseTurn_measure (c c' : Cursor r) (h : parseTurn c = .inl c') :
    c'.measure < c.measure := by
  obtain ⟨n, hn, hdata, -, hne, hstay⟩ := parseTurn_inl h
  have hpos : 0 < c.szDataA.length := List.length_pos_iff.mpr hne
  have hle : ∀ nState : EState, nState.mayStay ≤ 1 := by
    intro nState
    cases nState <;> decide
  have hle' := hle c'.s.p.nState
  rw [Cursor.measure, Cursor.measure, hdata, List.length_drop]
  by_cases hzero : n = 0
  · obtain ⟨hone, hgone⟩ := hstay hzero
    omega
  · omega

theorem endMessage_spec (s : Session r) {p : Parser e} (hdone : p.nState = .done) (nDataUsed : Nat) :
    (endMessage s p nDataUsed).nDataUsed = nDataUsed ∧
      ((endMessage s p nDataUsed).s.p.nState = .error ∨
        (endMessage s p nDataUsed).hRes = .sOk ∧ (endMessage s p nDataUsed).s.p.nState = .done) := by
  rw [endMessage]
  cases s.flush with
  | error err => exact ⟨rfl, Or.inl rfl⟩
  | ok s => exact ⟨rfl, Or.inr ⟨rfl, hdone⟩⟩

/-- How a call ends: at the end of the buffer, with the headers or the message, or with
a failure. -/
theorem parseTurn_inr {c : Cursor r} {out : Parsed r} (h : parseTurn c = .inr out) :
    ∃ n, n ≤ c.szDataA.length ∧ out.nDataUsed = c.nDataUsed + n ∧
      (out.s.p.nState = .error ∨ out.hRes = .sOk ∧ (out.s.p.nState = .bodyStart ∨
        out.s.p.nState = .done ∨ n = c.szDataA.length)) := by
  rcases parseTurn_ends h with ⟨hdata, rfl⟩ | ⟨ch, rest, hdata, hends⟩
  · rw [hdata]
    exact ⟨0, Nat.le_refl _, rfl, Or.inr ⟨rfl, Or.inr (Or.inr rfl)⟩⟩
  have hlen : c.szDataA.length = rest.length + 1 := by rw [hdata, List.length_cons]
  have hsound := charTurn_sound c.s.p ch (Nat.succ_pos rest.length)
  cases hends with
  | leave n p hturn hout =>
    subst hout
    rw [hturn] at hsound
    obtain ⟨rfl, hstate⟩ := hsound
    exact ⟨1, by omega, rfl, Or.inr ⟨rfl, hstate.imp_right Or.inl⟩⟩
  | fail hRes n p hturn hout =>
    subst hout
    rw [hturn] at hsound
    exact ⟨n, Nat.le_trans hsound (by omega), rfl, Or.inl rfl⟩
  | reject err passed hout =>
    subst hout
    exact ⟨0, Nat.zero_le _, rfl, Or.inl rfl⟩
  | lastContent n p s hturn hout =>
    subst hout
    rw [hturn] at hsound
    obtain ⟨hused, hend⟩ := endMessage_spec s hsound.2 (c.nDataUsed + n)
    refine ⟨n, by rw [hlen]; exact hsound.1, hused, ?_⟩
    exact hend.imp_right fun hok => ⟨hok.1, Or.inr (Or.inl hok.2)⟩
  | flush p hturn hout =>
    subst hout
    rw [hturn] at hsound
    obtain ⟨hused, hend⟩ := endMessage_spec c.s hsound c.nDataUsed
    refine ⟨0, Nat.zero_le _, hused, ?_⟩
    exact hend.imp_right fun hok => ⟨hok.1, Or.inr (Or.inl hok.2)⟩

end Turn

/-! ### A call -/

section Call

variable {r : Receiver e}

/-- The loop of a call of `Parse` leaves, and its cursor stays in the buffer and looks at
no character more than twice.  A call that fails leaves the parser in `Error`, and one that
does not uses the whole buffer, unless the headers or the message end. -/
structure Progresses (s : Session r) (lpData : List Byte) : Prop where
  terminates : Loop.run parseTurn (2 * lpData.length + 2) ⟨s, lpData, 0⟩ =
    some (Loop.exec parseTurn Cursor.measure ⟨.sOk, s, 0⟩ ⟨s, lpData, 0⟩)
  within : ∀ c, Loop.Reach parseTurn ⟨s, lpData, 0⟩ c → c.Within lpData
  examined : ∀ k, ∃ i, ∀ j c, Loop.turns parseTurn j ⟨s, lpData, 0⟩ = some c →
    c.nDataUsed = k → j = i ∨ j = i + 1
  used : (parse s lpData).nDataUsed ≤ lpData.length
  failed : (parse s lpData).hRes.failed = true → (parse s lpData).s.p.nState = .error
  consumed : (parse s lpData).s.p.nState ≠ .error → (parse s lpData).s.p.nState ≠ .bodyStart →
    (parse s lpData).s.p.nState ≠ .done → (parse s lpData).nDataUsed = lpData.length

theorem within_start (s : Session r) (lpData : List Byte) :
    Cursor.Within lpData (⟨s, lpData, 0⟩ : Cursor r) :=
  ⟨Nat.zero_le _, List.drop_zero.symm⟩

theorem within_of_reach {s : Session r} {lpData : List Byte} {c : Cursor r}
    (h : Loop.Reach parseTurn ⟨s, lpData, 0⟩ c) : c.Within lpData := by
  refine Loop.reach_induct (Cursor.Within lpData) ?_ (within_start s lpData) h
  intro c c' hc hturn
  obtain ⟨n, hn, hdata, hused, -, -⟩ := parseTurn_inl hturn
  have hdrop := hc.drop hn c'.s
  rwa [← hdata, ← hused] at hdrop

theorem parseTurn_mono (c c' : Cursor r) (h : parseTurn c = .inl c') :
    c.nDataUsed ≤ c'.nDataUsed := by
  obtain ⟨n, -, -, hused, -, -⟩ := parseTurn_inl h
  omega

/-- Two turns leave a character behind: a turn that stays is not followed by another. -/
theorem parseTurn_twice (c c' c'' : Cursor r) (h : parseTurn c = .inl c')
    (h' : parseTurn c' = .inl c'') : c.nDataUsed < c''.nDataUsed := by
  obtain ⟨n, -, -, hused, -, hstay⟩ := parseTurn_inl h
  obtain ⟨m, -, -, hused', -, hstay'⟩ := parseTurn_inl h'
  by_contra hnot
  have hgone := (hstay (by omega)).2
  have hone := (hstay' (by omega)).1
  omega

/-- What the loop of a call ends with. -/
theorem exec_spec (s : Session r) (lpData : List Byte) (dflt : Parsed r) :
    let out := Loop.exec parseTurn Cursor.measure dflt ⟨s, lpData, 0⟩
    out.nDataUsed ≤ lpData.length ∧ (out.s.p.nState = .error ∨ out.hRes = .sOk ∧
      (out.s.p.nState = .bodyStart ∨ out.s.p.nState = .done ∨ out.nDataUsed = lpData.length)) := by
  obtain ⟨c, hreach, hleave⟩ := Loop.exists_reach_exec parseTurn_measure dflt ⟨s, lpData, 0⟩
  obtain ⟨n, hn, hused, hend⟩ := parseTurn_inr hleave
  have hlen := (within_of_reach hreach).length
  refine ⟨by omega, hend.imp_right fun hok => ⟨hok.1, hok.2.imp_right ?_⟩⟩
  exact fun h => h.imp_right fun hall => by omega

/-- **Every call of `Parse` gets on.** -/
theorem progress (s : Session r) (lpData : List Byte) : Progresses s lpData := by
  have hexec := exec_spec s lpData ⟨.sOk, s, 0⟩
  have hstart : Cursor.measure (⟨s, lpData, 0⟩ : Cursor r) + 1 ≤ 2 * lpData.length + 2 := by
    rw [Cursor.measure]
    dsimp only
    cases s.p.nState <;> simp only [EState.mayStay] <;> omega
  have hrun := Loop.run_exec parseTurn_measure ⟨.sOk, s, 0⟩ (⟨s, lpData, 0⟩ : Cursor r)
  refine ⟨Loop.run_mono hrun hstart, fun c => within_of_reach, ?_, ?_, ?_, ?_⟩
  · exact Loop.exists_turns_at parseTurn_mono parseTurn_twice ⟨s, lpData, 0⟩
  · rw [parse]
    split_ifs
    · exact Nat.zero_le _
    · exact Nat.zero_le _
    · exact hexec.1
  · rw [parse]
    split_ifs with hdone herror
    · exact fun h => absurd h Bool.false_ne_true
    · exact fun _ => herror
    · intro h
      rcases hexec.2 with herr | ⟨hok, -⟩
      · exact herr
      · rw [hok] at h
        exact absurd h (by decide)
  · rw [parse]
    split_ifs with hdone herror
    · exact fun _ _ h => absurd hdone h
    · exact fun h => absurd herror h
    · intro h h' h''
      rcases hexec.2 with herr | ⟨-, hbody | hend | hall⟩
      · exact absurd herr h
      · exact absurd hbody h'
      · exact absurd hend h''
      · exact hall

end Call

end MxLib.Http.HttpParser
