import MxLib.Http.WebSockets.ReceiveBytes

/-!
# Reading a frame

`RawFrame` is a frame as it is on the wire: any first byte, any of the three forms of
the length, with a mask or without.  Its header is read as it stands
(`RawFrame.feed_header`), and a payload that is there as a whole ends the frame
(`continueWith_payload`).
-/

namespace MxLib.Http.WebSockets

open MxLib.Library MxLib.Library.Stream

/-! ### Frames on the wire -/

/-- The last `k` bytes of a number, the highest first. -/
def bigEndian : Nat → Nat → List Byte
  | 0, _ => []
  | k + 1, n => UInt8.ofNat (n / 256 ^ k) :: bigEndian k n

/-- The forms of the length of a payload. -/
inductive LengthForm
  | short | medium | long
deriving DecidableEq

namespace LengthForm

/-- The lengths of a form are below this. -/
def limit : LengthForm → Nat
  | short => 126
  | medium => 65536
  | long => 2 ^ 64

/-- The length in the second byte of a header. -/
def code (n : Nat) : LengthForm → Nat
  | short => n
  | medium => 126
  | long => 127

/-- The bytes of the length after it. -/
def bytes (n : Nat) : LengthForm → List Byte
  | short => []
  | medium => bigEndian 2 n
  | long => bigEndian 8 n

end LengthForm

/-- A frame on the wire; the payload is the one on the wire, too. -/
structure RawFrame where
  first : Byte
  form : LengthForm
  key : Option MaskKey
  payload : List Byte
  fits : payload.length < form.limit

namespace RawFrame

def opcode (f : RawFrame) : Byte := f.first &&& 0x0F
def rsv (f : RawFrame) : Byte := (f.first >>> 4) &&& 7
def fin (f : RawFrame) : Bool := f.first >>> 7 != 0
def isControl (f : RawFrame) : Bool := f.opcode &&& opcodeControlFrameMask != 0

def second (f : RawFrame) : Byte :=
  UInt8.ofNat (f.form.code f.payload.length + if f.key.isSome then 128 else 0)

def keyBytes (f : RawFrame) : List Byte :=
  match f.key with
  | some key => key.bytes
  | none => []

def wire (f : RawFrame) : List Byte :=
  f.first :: f.second :: (f.form.bytes f.payload.length ++ (f.keyBytes ++ f.payload))

/-- The socket after the header of a frame. -/
def headerDone (s : Receive) (f : RawFrame) (nOpcode : Byte) : Receive :=
  { s with
    nState := 16
    header0 := f.first
    header1 := f.second
    nPayloadLen := f.payload.length
    uMasking := f.key.getD s.uMasking
    sCurrentMessage := { s.sCurrentMessage with nOpcode := nOpcode } }

end RawFrame

/-! ### Reading a header -/

section Header

variable {e : ReceiveEnv}

variable (e) in
/-- The machine goes on with `l` after a byte of a header. -/
def continueWith (x : Except Stop Receive) (l : List Byte) : Except Stop Receive :=
  match x with
  | .error r => .error r
  | .ok s =>
    match settle e s with
    | .error r => .error r
    | .ok t => feed (receiveByte e) t l

theorem continueWith_ok {s : Receive} (h : s.nState < 16) (l : List Byte) :
    continueWith e (.ok s) l = feed (receiveByte e) s l := by
  simp only [continueWith, settle_of_lt h]

theorem feed_header_cons {s : Receive} (h : s.nState < 16) (b : Byte) (l : List Byte) :
    feed (receiveByte e) s (b :: l) = continueWith e (headerByte e s b) l := by
  simp only [feed, receiveByte, if_pos h, continueWith]
  cases headerByte e s b with
  | error r => rfl
  | ok t => dsimp only; cases settle e t <;> rfl

variable (e) in
/-- `F` takes the bytes of a header one by one. -/
def TakesHeader {α : Type} (F : Receive → List Byte → Except Stop α) : Prop :=
  ∀ (s : Receive) (b : Byte) (l : List Byte), s.nState < 16 →
    F s (b :: l) = (headerByte e s b).bind fun t => F t l

theorem takesHeader_continueWith : TakesHeader e fun s l => continueWith e (.ok s) l := by
  intro s b l h
  dsimp only
  rw [continueWith_ok h, feed_header_cons h]
  cases headerByte e s b <;> rfl

section TakesHeader

variable {α : Type} {F : Receive → List Byte → Except Stop α}

theorem setByte_next (n k : Nat) :
    setByte (n / 256 ^ (k + 1) * 256 ^ (k + 1)) k (UInt8.ofNat (n / 256 ^ k)) =
      n / 256 ^ k * 256 ^ k := by
  have hpos : 0 < 256 ^ k := Nat.pow_pos (by decide)
  obtain ⟨m, hm⟩ : ∃ m, m = n / 256 ^ k := ⟨_, rfl⟩
  have hdiv : n / 256 ^ (k + 1) = m / 256 := by
    rw [Nat.pow_succ, ← Nat.div_div_eq_div_mul, ← hm]
  have hmul : m / 256 * 256 ^ (k + 1) = m / 256 * 256 * 256 ^ k := by
    rw [Nat.pow_succ, Nat.mul_comm (256 ^ k), Nat.mul_assoc]
  have hbyte : (UInt8.ofNat m).toNat = m % 256 := by simp
  rw [setByte, hdiv, ← hm, hmul, Nat.mul_div_cancel _ hpos, Nat.mul_mod_left, Nat.zero_mul,
    Nat.sub_zero, hbyte, ← Nat.add_mul, Nat.mul_comm (m / 256), Nat.div_add_mod]

/-- The eight bytes of a length. -/
theorem TakesHeader.length64 (hF : TakesHeader e F) (n k : Nat) : ∀ {s : Receive}, k < 8 →
    s.nState = 12 - (k + 1) → s.nPayloadLen = n / 256 ^ (k + 1) * 256 ^ (k + 1) → ∀ l,
    F s (bigEndian (k + 1) n ++ l) =
      (jumpToMaskKeyOrPayloadData e { s with nState := 12, nPayloadLen := n }).bind
        fun t => F t l := by
  induction k with
  | zero =>
    intro s _ hstate hpay l
    have hset : setByte s.nPayloadLen (11 - s.nState) (UInt8.ofNat (n / 256 ^ 0)) = n := by
      rw [hpay, hstate, setByte_next]
      simp
    rw [bigEndian, bigEndian, List.cons_append, List.nil_append, hF _ _ _ (by omega)]
    simp only [headerByte, if_neg (show ¬ s.nState = 0 by omega),
      if_neg (show ¬ s.nState = 1 by omega), if_neg (show ¬ s.nState < 4 by omega),
      if_pos (show s.nState < 12 by omega), hset]
    have hdone : s.nState + 1 = 12 := by omega
    by_cases hmask : s.nMask = true
    · have hmask' : (s.header1 >>> 7 != 0) = true := hmask
      simp [hdone, jumpToMaskKeyOrPayloadData, Receive.nMask, hmask']
    · have hmask' : (s.header1 >>> 7 != 0) = false := by simpa [Receive.nMask] using hmask
      simp [hdone, jumpToMaskKeyOrPayloadData, Receive.nMask, hmask']
  | succ k ih =>
    intro s hk hstate hpay l
    have hset : setByte s.nPayloadLen (11 - s.nState) (UInt8.ofNat (n / 256 ^ (k + 1))) =
        n / 256 ^ (k + 1) * 256 ^ (k + 1) := by
      rw [hpay, show 11 - s.nState = k + 1 by omega, setByte_next]
    rw [bigEndian, List.cons_append, hF _ _ _ (by omega)]
    simp only [headerByte, if_neg (show ¬ s.nState = 0 by omega),
      if_neg (show ¬ s.nState = 1 by omega), if_neg (show ¬ s.nState < 4 by omega),
      if_pos (show s.nState < 12 by omega), hset]
    rw [if_neg (by simp; omega), Except.bind, ih (by omega) (by simp only; omega) rfl]

/-- The two bytes of a length. -/
theorem TakesHeader.length16 (hF : TakesHeader e F) {n : Nat} (hn : n < 65536) {s : Receive}
    (hstate : s.nState = 2) (hpay : s.nPayloadLen = 0) (l : List Byte) :
    F s (bigEndian 2 n ++ l) =
      (jumpToMaskKeyOrPayloadData e { s with nState := 4, nPayloadLen := n }).bind
        fun t => F t l := by
  have hhigh : setByte s.nPayloadLen (3 - s.nState) (UInt8.ofNat (n / 256 ^ 1)) =
      n / 256 ^ 1 * 256 ^ 1 := by
    have hzero : s.nPayloadLen = n / 256 ^ (1 + 1) * 256 ^ (1 + 1) := by
      rw [hpay, Nat.div_eq_of_lt (by omega), Nat.zero_mul]
    rw [hzero, show 3 - s.nState = 1 by omega, setByte_next]
  have hlow : setByte (n / 256 ^ 1 * 256 ^ 1) 0 (UInt8.ofNat (n / 256 ^ 0)) = n := by
    rw [setByte_next]
    simp
  rw [bigEndian, bigEndian, bigEndian, List.cons_append, List.cons_append, List.nil_append,
    hF _ _ _ (by omega)]
  simp only [headerByte, if_neg (show ¬ s.nState = 0 by omega),
    if_neg (show ¬ s.nState = 1 by omega), if_pos (show s.nState < 4 by omega), hhigh]
  simp only [hstate]
  rw [if_neg (by decide), Except.bind, hF _ _ _ (show 2 + 1 < 16 by decide)]
  simp only [headerByte, if_neg (show ¬ 2 + 1 = 0 by decide), if_neg (show ¬ 2 + 1 = 1 by decide),
    if_pos (show 2 + 1 < 4 by decide), if_true]
  rw [hlow]

/-- The four bytes of a mask. -/
theorem TakesHeader.key (hF : TakesHeader e F) {s : Receive} (hstate : s.nState = 12)
    (key : MaskKey) (l : List Byte) :
    F s (key.bytes ++ l) =
      (validateMessageLength e { s with nState := 16, uMasking := key }).bind fun t => F t l := by
  have hbyte : ∀ (t : Receive) (k : Nat), t.nState = 12 + k → k < 3 → ∀ b l,
      F t (b :: l) = F { t with nState := 12 + k + 1, uMasking := t.uMasking.set k b } l := by
    intro t k ht hk b l
    rw [hF _ _ _ (by omega)]
    simp only [headerByte, ht, if_neg (show ¬ 12 + k = 0 by omega),
      if_neg (show ¬ 12 + k = 1 by omega), if_neg (show ¬ 12 + k < 4 by omega),
      if_neg (show ¬ 12 + k < 12 by omega), if_neg (show ¬ 12 + k + 1 = 16 by omega),
      show 12 + k - 12 = k by omega]
    rfl
  rw [MaskKey.bytes, List.cons_append, List.cons_append, List.cons_append, List.cons_append,
    List.nil_append, hbyte s 0 hstate (by decide), hbyte _ 1 rfl (by decide),
    hbyte _ 2 rfl (by decide), hF _ _ _ (show 12 + 2 + 1 < 16 by decide)]
  rfl

/-- The end of a header: the mask, if there is one. -/
theorem TakesHeader.keyBytes (hF : TakesHeader e F) {f : RawFrame} {s : Receive}
    (hmask : s.nMask = f.key.isSome) (l : List Byte) :
    ((jumpToMaskKeyOrPayloadData e s).bind fun t => F t (f.keyBytes ++ l)) =
      (validateMessageLength e
        { s with nState := 16, uMasking := f.key.getD s.uMasking }).bind fun t => F t l := by
  rw [jumpToMaskKeyOrPayloadData, hmask, RawFrame.keyBytes]
  cases f.key with
  | none =>
    rw [if_neg (by simp)]
    simp only [List.nil_append, Option.getD_none]
  | some key =>
    rw [if_pos (Option.isSome_some), Except.bind, hF.key rfl]
    rfl

/-! ### The first two bytes -/

theorem secondByte_spec : ∀ n < 128, ∀ b : Bool,
    (UInt8.ofNat (n + if b then 128 else 0) &&& 0x7F).toNat = n ∧
      (UInt8.ofNat (n + if b then 128 else 0) >>> 7 != 0) = b := by
  decide

theorem RawFrame.code_lt (f : RawFrame) : f.form.code f.payload.length < 128 := by
  have hfits := f.fits
  cases hform : f.form with
  | short =>
    rw [hform] at hfits
    exact Nat.lt_trans hfits (by decide)
  | medium => exact (by decide : 126 < 128)
  | long => exact (by decide : 127 < 128)

theorem RawFrame.second_spec (f : RawFrame) :
    (f.second &&& 0x7F).toNat = f.form.code f.payload.length ∧
      (f.second >>> 7 != 0) = f.key.isSome :=
  secondByte_spec _ f.code_lt _

theorem headerByte_first {s t : Receive} {b : Byte} (hstate : s.nState = 0)
    (hrsv : (b >>> 4) &&& 7 = 0)
    (hopcode : validateOpcode { s with header0 := b, nState := 1 } = .ok t) :
    headerByte e s b = .ok t := by
  simp only [headerByte, hstate, if_true, Receive.nRsv, hrsv, hopcode]
  rfl

theorem headerByte_second_short {s : Receive} {b : Byte} (hstate : s.nState = 1)
    (hlt : b &&& 0x7F < 126) :
    headerByte e s b = jumpToMaskKeyOrPayloadData e
      { s with header1 := b, nState := 2, nPayloadLen := (b &&& 0x7F).toNat } := by
  simp only [headerByte, hstate, if_neg (show ¬ 1 = 0 by decide), if_true, Receive.nPayloadLen7]
  exact if_pos hlt

theorem headerByte_second_long {s : Receive} {b : Byte} (hstate : s.nState = 1)
    (hle : ¬ b &&& 0x7F < 126) (hdata : s.isControl = false) :
    headerByte e s b = .ok { s with
      header1 := b, nPayloadLen := 0, nState := if b &&& 0x7F == 126 then 2 else 4 } := by
  simp only [headerByte, hstate, if_neg (show ¬ 1 = 0 by decide), if_true, Receive.nPayloadLen7]
  refine (if_neg hle).trans (if_neg ?_)
  rw [Bool.not_eq_true]
  exact hdata

/-- **The header of a frame is read**, whatever goes on with the payload. -/
theorem TakesHeader.wire (hF : TakesHeader e F) {f : RawFrame} {s : Receive} {nOpcode : Byte}
    (hstate : s.nState = 0) (hrsv : f.rsv = 0)
    (hopcode : validateOpcode { s with header0 := f.first, nState := 1 } =
      .ok { s with
        header0 := f.first, nState := 1
        sCurrentMessage := { s.sCurrentMessage with nOpcode := nOpcode } })
    (hcontrol : f.isControl = true → f.form = .short) :
    F s f.wire =
      (validateMessageLength e (f.headerDone s nOpcode)).bind fun t => F t f.payload := by
  obtain ⟨hlen, hmask⟩ := f.second_spec
  have hfits := f.fits
  rw [RawFrame.wire, hF _ _ _ (by omega), headerByte_first hstate hrsv hopcode, Except.bind,
    hF _ _ _ (show 1 < 16 by decide)]
  have hbyte : f.form ≠ .short → ∀ t : Receive, t.nState = 1 → t.header0 = f.first →
      ¬ f.second &&& 0x7F < 126 → headerByte e t f.second = .ok { t with
        header1 := f.second, nPayloadLen := 0
        nState := if f.second &&& 0x7F == 126 then 2 else 4 } := by
    intro hform t ht hfirst hle
    refine headerByte_second_long ht hle ?_
    rw [Receive.isControl, Receive.nOpcode, hfirst]
    exact Bool.eq_false_iff.mpr fun h => hform (hcontrol h)
  cases hform : f.form with
  | short =>
    rw [hform] at hlen hfits
    have hlt : f.second &&& 0x7F < 126 := UInt8.lt_iff_toNat_lt.mpr (by rw [hlen]; exact hfits)
    rw [headerByte_second_short rfl hlt, hlen, LengthForm.bytes, List.nil_append]
    refine (hF.keyBytes (f := f) ?_ _).trans rfl
    exact hmask
  | medium =>
    rw [hform] at hlen hfits
    have hseven : f.second &&& 0x7F = 126 := UInt8.toNat_inj.mp hlen
    rw [hbyte (by rw [hform]; decide) _ rfl rfl (by rw [hseven]; decide), hseven,
      if_pos (by decide), LengthForm.bytes, Except.bind, hF.length16 hfits rfl rfl]
    refine (hF.keyBytes (f := f) ?_ _).trans rfl
    exact hmask
  | long =>
    rw [hform] at hlen hfits
    have hseven : f.second &&& 0x7F = 127 := UInt8.toNat_inj.mp hlen
    have hpay : 0 = f.payload.length / 256 ^ (7 + 1) * 256 ^ (7 + 1) := by
      rw [Nat.div_eq_of_lt (Nat.lt_of_lt_of_le hfits (by decide)), Nat.zero_mul]
    rw [hbyte (by rw [hform]; decide) _ rfl rfl (by rw [hseven]; decide), hseven,
      if_neg (by decide), LengthForm.bytes, Except.bind, hF.length64 _ 7 (by decide) rfl hpay]
    refine (hF.keyBytes (f := f) ?_ _).trans rfl
    exact hmask

end TakesHeader

theorem RawFrame.feed_header {f : RawFrame} {s : Receive} {nOpcode : Byte}
    (hstate : s.nState = 0) (hrsv : f.rsv = 0)
    (hopcode : validateOpcode { s with header0 := f.first, nState := 1 } =
      .ok { s with
        header0 := f.first, nState := 1
        sCurrentMessage := { s.sCurrentMessage with nOpcode := nOpcode } })
    (hcontrol : f.isControl = true → f.form = .short) :
    feed (receiveByte e) s f.wire =
      continueWith e (validateMessageLength e (f.headerDone s nOpcode)) f.payload := by
  have hwire := takesHeader_continueWith.wire (e := e) hstate hrsv hopcode hcontrol
  rw [continueWith_ok (by omega)] at hwire
  rw [hwire]
  cases validateMessageLength e (f.headerDone s nOpcode) <;> rfl

/-! ### The payload -/

theorem foldl_payloadByte_spec (l : List Byte) : ∀ {s : Receive}, BlockOpen s →
    l.length = s.nPayloadLen →
    (l.foldl payloadByte s).nPayloadLen = 0 ∧ (l.foldl payloadByte s).nState = s.nState := by
  induction l with
  | nil => exact fun _ hlen => ⟨hlen.symm, rfl⟩
  | cons b l ih =>
    intro s hs hlen
    rw [List.length_cons] at hlen
    obtain ⟨hopen, hpay, hstate, -⟩ := payloadByte_spec hs (by omega) b
    obtain ⟨hzero, hstate'⟩ := ih hopen (by omega)
    exact ⟨hzero, hstate'.trans hstate⟩

/-- A payload that is there as a whole is read, and the frame ends. -/
theorem continueWith_payload {s : Receive} (hs : BlockOpen s) (hstate : s.nState = 16)
    {l : List Byte} (hlen : l.length = s.nPayloadLen) :
    continueWith e (.ok s) l = endFrame e (l.foldl payloadByte s) := by
  cases l with
  | nil =>
    rw [List.length_nil] at hlen
    simp only [continueWith, settle, if_neg (show ¬ s.nState < 16 by omega), if_pos hlen.symm,
      List.foldl_nil]
    cases endFrame e s <;> rfl
  | cons b l =>
    obtain ⟨hzero, hstate'⟩ := foldl_payloadByte_spec (b :: l) hs hlen
    have hpos : 0 < s.nPayloadLen := by rw [← hlen]; exact Nat.succ_pos _
    simp only [continueWith, settle_of_pos hpos]
    rw [feed_payload (b :: l) hs (by omega) (List.cons_ne_nil _ _) (by omega), settle,
      if_neg (by omega), if_pos hzero]

theorem validateMessageLength_fit {s : Receive}
    (h : s.sCurrentMessage.nTotalDataLength + s.nPayloadLen ≤ e.nMaxMessageSize.toNat) :
    validateMessageLength e s = .ok s := by
  have hmax := e.nMaxMessageSize.toNat_lt
  have hmod : (s.sCurrentMessage.nTotalDataLength + s.nPayloadLen) % 2 ^ 64 =
      s.sCurrentMessage.nTotalDataLength + s.nPayloadLen := Nat.mod_eq_of_lt (by omega)
  rw [validateMessageLength, hmod, if_neg (by omega), if_neg (by omega)]

/-- A payload that does not fit is refused, also when the sum of the lengths wraps. -/
theorem validateMessageLength_unfit {s : Receive}
    (hle : s.sCurrentMessage.nTotalDataLength ≤ e.nMaxMessageSize.toNat)
    (hshort : s.nPayloadLen < 2 ^ 64)
    (h : ¬ s.sCurrentMessage.nTotalDataLength + s.nPayloadLen ≤ e.nMaxMessageSize.toNat) :
    ∃ hRes, validateMessageLength e s = .error (hRes, s) ∧ hRes.failed = true := by
  have hmax := e.nMaxMessageSize.toNat_lt
  rw [validateMessageLength]
  split_ifs with hwrap hlarge
  · exact ⟨_, rfl, rfl⟩
  · exact ⟨_, rfl, rfl⟩
  · rw [Nat.mod_eq_of_lt (by omega)] at hlarge
    omega

end Header

end MxLib.Http.WebSockets
