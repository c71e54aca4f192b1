import MxLib.Defines
import MxLib.Library.Stream

/-!
# Base64

`CBase64Encoder` and `CBase64Decoder`, which take their input in any number of calls
of `Process`.  The output buffer is the list of the bytes in it; it grows as needed,
and allocation does not fail.  `aInput` is the list of its first `nInputLength`
entries.

The text of a byte string is written down once more from the definition of the
encoding (`base64Text`): three bytes are a number of 24 bits, and its four digits in
base 64 are looked up in the alphabet.
-/

namespace MxLib.Crypto

open MxLib.Library.Stream

def szBase64CharsA : List Byte :=
  ascii "ABCDEFGHIJKLMNOPQRSTUVWXYZabcdefghijklmnopqrstuvwxyz0123456789+/"

def decodeTable : List Byte :=
  ascii "|$$$\x7drstuvwxyz\x7b$$$=$$$>?@ABCDEFGHIJKLMNOPQRSTUVW$$$$$$XYZ[\\]^_`abcdefghijklmnopq"

def chEqual : Byte := 0x3D
def chDollar : Byte := 0x24

/-- `szBase64CharsA[k]` -/
def base64Char (k : Byte) : Byte := szBase64CharsA.getD k.toNat 0

/-! ### The encoder -/

structure Encoder where
  szBufferA : List Byte
  aInput : List Byte
deriving DecidableEq

/-- `Begin` -/
def Encoder.begin : Encoder := ⟨[], []⟩

/-- The four characters of a group of three bytes. -/
def encodeGroup (a b c : Byte) : List Byte :=
  [base64Char ((a &&& 0xFC) >>> 2), base64Char (((a &&& 0x03) <<< 4) + ((b &&& 0xF0) >>> 4)),
    base64Char (((b &&& 0x0F) <<< 2) + ((c &&& 0xC0) >>> 6)), base64Char (c &&& 0x3F)]

/-- One turn of the loop of `CBase64Encoder::Process`. -/
def Encoder.processByte (s : Encoder) (ch : Byte) : Encoder :=
  match s.aInput ++ [ch] with
  | [a, b, c] => ⟨s.szBufferA ++ encodeGroup a b c, []⟩
  | aInput => { s with aInput := aInput }

/-- `CBase64Encoder::Process` -/
def Encoder.process (s : Encoder) (lpData : List Byte) : Encoder := lpData.foldl processByte s

/-- `CBase64Encoder::End` -/
def Encoder.finish (s : Encoder) : Encoder :=
  match s.aInput with
  | [a] => { s with szBufferA := s.szBufferA ++ ((encodeGroup a 0 0).take 2 ++ [chEqual, chEqual]) }
  | [a, b] => { s with szBufferA := s.szBufferA ++ ((encodeGroup a b 0).take 3 ++ [chEqual]) }
  | _ => s

/-- `CBase64Encoder::GetRequiredSpace` -/
def encoderRequiredSpace (nDataLen : Nat) : Nat := ((nDataLen + 2) / 3) <<< 2

/-- The output for data that comes in pieces. -/
def encode (pieces : List (List Byte)) : List Byte :=
  (pieces.foldl Encoder.process .begin).finish.szBufferA

/-! ### The decoder -/

structure Decoder where
  lpBuffer : List Byte
  aInput : List Byte
  nEqualCounter : Nat
deriving DecidableEq

/-- `Begin` -/
def Decoder.begin : Decoder := ⟨[], [], 0⟩

/-- The entry of the table for a character. -/
def decodeValue (ch : Byte) : Byte :=
  if ch < 43 || ch > 122 then chDollar else decodeTable.getD (ch.toNat - 43) 0

/-- The three bytes of a group of four characters. -/
def decodeGroup (a b c d : Byte) : List Byte :=
  [(a <<< 2) ||| (b >>> 4), (b <<< 4) ||| (c >>> 2), ((c <<< 6) &&& 0xC0) ||| d]

/-- The character is in the alphabet: four of them are three bytes. -/
def Decoder.put (s : Decoder) (val : Byte) : Decoder :=
  match s.aInput ++ [val] with
  | [a, b, c, d] => ⟨s.lpBuffer ++ decodeGroup a b c d, [], 0⟩
  | aInput => ⟨s.lpBuffer, aInput, 0⟩

/-- One turn of the loop of `CBase64Decoder::Process`. -/
def Decoder.processByte (s : Decoder) (ch : Byte) : Except HResult Decoder :=
  let val := decodeValue ch
  if val == chEqual then
    if s.nEqualCounter + 1 > 2 then .error .mxInvalidData
    else .ok { s with nEqualCounter := s.nEqualCounter + 1 }
  else if val != chDollar then .ok (s.put (val - 62))
  else .ok s

/-- `CBase64Decoder::Process` -/
def Decoder.process (s : Decoder) (szDataA : List Byte) : Except HResult Decoder :=
  feed processByte s szDataA

/-- `CBase64Decoder::End` -/
def Decoder.finish (s : Decoder) : Decoder :=
  match s.aInput with
  | [a, b] => { s with lpBuffer := s.lpBuffer ++ (decodeGroup a b 0 0).take 1 }
  | [a, b, c] => { s with lpBuffer := s.lpBuffer ++ (decodeGroup a b c 0).take 2 }
  | _ => s

/-- The output for a text that comes in pieces. -/
def decode (pieces : List (List Byte)) : Except HResult (List Byte) :=
  (feed Decoder.process .begin pieces).map fun s => s.finish.lpBuffer

/-! ### The encoding -/

/-- The digits of a number of 24 bits in base 64. -/
def digits64 (n : Nat) : List Nat := [n / 64 ^ 3, n / 64 ^ 2 % 64, n / 64 % 64, n % 64]

/-- The character of a digit. -/
def charOf (d : Nat) : Byte := szBase64CharsA.getD d 0

/-- The number that three bytes are. -/
def number24 (a b c : Byte) : Nat := a.toNat * 256 ^ 2 + b.toNat * 256 + c.toNat

/-- The text of a byte string: groups of three bytes, and at the end one or two bytes
whose text is padded. -/
def base64Text : List Byte → List Byte
  | [] => []
  | [a] => ((digits64 (number24 a 0 0)).take 2).map charOf ++ [chEqual, chEqual]
  | [a, b] => ((digits64 (number24 a b 0)).take 3).map charOf ++ [chEqual]
  | a :: b :: c :: data => (digits64 (number24 a b c)).map charOf ++ base64Text data

/-- The bytes a text is made of: the alphabet and the padding. -/
def isBase64 (ch : Byte) : Bool := szBase64CharsA.contains ch || ch == chEqual

/-! ### Bytes and digits -/

/-- A mask over the upper bits, shifted down. -/
theorem toNat_and_shiftRight (a m k : Byte) {n : Nat} (hm : m.toNat >>> (k.toNat % 8) = 2 ^ n - 1) :
    ((a &&& m) >>> k).toNat = a.toNat / 2 ^ (k.toNat % 8) % 2 ^ n := by
  rw [UInt8.toNat_shiftRight, UInt8.toNat_and, Nat.shiftRight_and_distrib, hm,
    Nat.and_two_pow_sub_one_eq_mod, Nat.shiftRight_eq_div_pow]

/-- A mask over the lower bits, shifted up. -/
theorem toNat_and_shiftLeft (a m k : Byte) {n : Nat} (hm : m.toNat = 2 ^ n - 1)
    (hn : n + k.toNat % 8 ≤ 8) :
    ((a &&& m) <<< k).toNat = a.toNat % 2 ^ n * 2 ^ (k.toNat % 8) := by
  rw [UInt8.toNat_shiftLeft, UInt8.toNat_and, hm, Nat.and_two_pow_sub_one_eq_mod,
    Nat.shiftLeft_eq]
  apply Nat.mod_eq_of_lt
  calc a.toNat % 2 ^ n * 2 ^ (k.toNat % 8)
      < 2 ^ n * 2 ^ (k.toNat % 8) :=
        Nat.mul_lt_mul_of_pos_right (Nat.mod_lt _ (Nat.two_pow_pos n)) (Nat.two_pow_pos _)
    _ = 2 ^ (n + k.toNat % 8) := (Nat.pow_add 2 n _).symm
    _ ≤ 2 ^ 8 := Nat.pow_le_pow_right Nat.two_pos hn

theorem firstDigit_eq (a : Byte) : ((a &&& 0xFC) >>> 2).toNat = a.toNat / 4 := by
  have ha := a.toNat_lt
  have heq : ((a &&& 0xFC) >>> 2).toNat = a.toNat / 4 % 64 :=
    toNat_and_shiftRight a 0xFC 2 (n := 6) rfl
  omega

theorem lowBits_eq (a : Byte) : ((a &&& 0x03) <<< 4).toNat = a.toNat % 4 * 16 :=
  toNat_and_shiftLeft a 0x03 4 (n := 2) rfl (by decide)

theorem highBits_eq (b : Byte) : ((b &&& 0xF0) >>> 4).toNat = b.toNat / 16 := by
  have hb := b.toNat_lt
  have heq : ((b &&& 0xF0) >>> 4).toNat = b.toNat / 16 % 16 :=
    toNat_and_shiftRight b 0xF0 4 (n := 4) rfl
  omega

theorem lowBits_eq' (b : Byte) : ((b &&& 0x0F) <<< 2).toNat = b.toNat % 16 * 4 :=
  toNat_and_shiftLeft b 0x0F 2 (n := 4) rfl (by decide)

theorem highBits_eq' (c : Byte) : ((c &&& 0xC0) >>> 6).toNat = c.toNat / 64 := by
  have hc := c.toNat_lt
  have heq : ((c &&& 0xC0) >>> 6).toNat = c.toNat / 64 % 4 :=
    toNat_and_shiftRight c 0xC0 6 (n := 2) rfl
  omega

theorem lastDigit_eq (c : Byte) : (c &&& 0x3F).toNat = c.toNat % 64 := by
  rw [UInt8.toNat_and]
  exact Nat.and_two_pow_sub_one_eq_mod c.toNat 6

/-- **The masks and shifts of the encoder take the digits of the number.** -/
theorem encodeGroup_eq (a b c : Byte) :
    encodeGroup a b c = (digits64 (number24 a b c)).map charOf := by
  have ha := a.toNat_lt
  have hb := b.toNat_lt
  have hc := c.toNat_lt
  have h₀ : ((a &&& 0xFC) >>> 2).toNat = number24 a b c / 64 ^ 3 := by
    rw [firstDigit_eq, number24]
    omega
  have h₁ : (((a &&& 0x03) <<< 4) + ((b &&& 0xF0) >>> 4)).toNat =
      number24 a b c / 64 ^ 2 % 64 := by
    rw [UInt8.toNat_add, lowBits_eq, highBits_eq, number24]
    omega
  have h₂ : (((b &&& 0x0F) <<< 2) + ((c &&& 0xC0) >>> 6)).toNat =
      number24 a b c / 64 % 64 := by
    rw [UInt8.toNat_add, lowBits_eq', highBits_eq', number24]
    omega
  have h₃ : (c &&& 0x3F).toNat = number24 a b c % 64 := by
    rw [lastDigit_eq, number24]
    omega
  simp only [encodeGroup, base64Char, h₀, h₁, h₂, h₃, digits64, List.map_cons, List.map_nil, charOf]

/-! ### Encoding in pieces -/

/-- **What is left to be encoded**: after any data the output is complete up to the
one or two bytes that wait for more. -/
theorem finish_foldl_processByte (data : List Byte) : ∀ s : Encoder, s.aInput.length < 3 →
    (data.foldl Encoder.processByte s).finish.szBufferA =
      s.szBufferA ++ base64Text (s.aInput ++ data) := by
  induction data with
  | nil =>
    intro s hs
    obtain ⟨out, aInput⟩ := s
    match aInput, hs with
    | [], _ => simp [Encoder.finish, base64Text]
    | [a], _ => simp [Encoder.finish, base64Text, encodeGroup_eq]
    | [a, b], _ => simp [Encoder.finish, base64Text, encodeGroup_eq]
  | cons ch data ih =>
    intro s hs
    obtain ⟨out, aInput⟩ := s
    rw [List.foldl_cons]
    match aInput, hs with
    | [], _ => exact ih ⟨out, [ch]⟩ (by simp)
    | [a], _ => exact ih ⟨out, [a, ch]⟩ (by simp)
    | [a, b], _ =>
      have hstep : Encoder.processByte ⟨out, [a, b]⟩ ch = ⟨out ++ encodeGroup a b ch, []⟩ := rfl
      rw [hstep, ih _ (by simp)]
      simp [base64Text, encodeGroup_eq]

theorem foldl_process (pieces : List (List Byte)) : ∀ s : Encoder,
    pieces.foldl Encoder.process s = pieces.flatten.foldl Encoder.processByte s := by
  induction pieces with
  | nil => intro s; rfl
  | cons data pieces ih =>
    intro s
    rw [List.foldl_cons, ih, List.flatten_cons, List.foldl_append]
    rfl

/-- **However the data is cut, the output is its text.** -/
theorem encode_eq (pieces : List (List Byte)) : encode pieces = base64Text pieces.flatten := by
  rw [encode, foldl_process, finish_foldl_processByte _ _ (by simp [Encoder.begin])]
  rfl

theorem length_base64Text (data : List Byte) :
    (base64Text data).length = encoderRequiredSpace data.length := by
  induction data using base64Text.induct with
  | case1 => rfl
  | case2 a => simp [base64Text, digits64, encoderRequiredSpace]
  | case3 a b => simp [base64Text, digits64, encoderRequiredSpace]
  | case4 a b c data ih =>
    rw [base64Text, List.length_append, ih, encoderRequiredSpace, encoderRequiredSpace,
      Nat.shiftLeft_eq, Nat.shiftLeft_eq]
    simp only [digits64, List.length_map, List.length_cons, List.length_nil]
    omega

/-! ### Decoding -/

theorem szBase64CharsA_eq : szBase64CharsA =
    (List.range' 0x41 26 ++ List.range' 0x61 26 ++ List.range' 0x30 10 ++ [0x2B, 0x2F]).map
      UInt8.ofNat := by
  rw [szBase64CharsA, ascii_eq_map (by rfl)]
  rfl

theorem decodeTable_eq : decodeTable =
    ([0x7C, 0x24, 0x24, 0x24, 0x7D] ++ List.range' 0x72 10 ++
      [0x24, 0x24, 0x24, 0x3D, 0x24, 0x24, 0x24] ++ List.range' 0x3E 26 ++
        List.replicate 6 0x24 ++ List.range' 0x58 26).map UInt8.ofNat := by
  rw [decodeTable, ascii_eq_map (by rfl)]
  rfl

theorem decodeValue_charOf : ∀ d < 64,
    (decodeValue (charOf d) == chEqual) = false ∧ (decodeValue (charOf d) != chDollar) = true ∧
      decodeValue (charOf d) - 62 = UInt8.ofNat d := by
  have hvalue : ∀ d < 64, decodeValue (charOf d) = UInt8.ofNat (d + 62) := by
    simp only [decodeValue, charOf, szBase64CharsA_eq, decodeTable_eq]
    decide
  have hdigit : ∀ d < 64, (UInt8.ofNat (d + 62) == chEqual) = false ∧
      (UInt8.ofNat (d + 62) != chDollar) = true ∧ UInt8.ofNat (d + 62) - 62 = UInt8.ofNat d := by
    decide
  intro d hd
  rw [hvalue d hd]
  exact hdigit d hd

theorem decodeValue_noise {ch : Byte} (h : isBase64 ch = false) : decodeValue ch = chDollar := by
  have hrange : ∀ k < 80, isBase64 (UInt8.ofNat (k + 43)) = false →
      decodeTable.getD k 0 = chDollar := by
    simp only [isBase64, szBase64CharsA_eq, decodeTable_eq]
    decide
  unfold decodeValue
  by_cases hch : ch < 43 || ch > 122
  · rw [if_pos hch]
  · rw [if_neg hch]
    simp only [Bool.or_eq_true, decide_eq_true_eq, not_or, UInt8.lt_iff_toNat_lt, gt_iff_lt] at hch
    have h43 : (43 : Byte).toNat = 43 := rfl
    have h122 : (122 : Byte).toNat = 122 := rfl
    refine hrange _ (by omega) ?_
    rwa [Nat.sub_add_cancel (by omega), UInt8.ofNat_toNat]

theorem decodeValue_equal : decodeValue chEqual = chEqual := by
  rw [decodeValue, decodeTable_eq]
  rfl

/-- A character that is not of the encoding changes nothing. -/
theorem processByte_noise (s : Decoder) (ch : Byte) (h : isBase64 ch = false) :
    s.processByte ch = .ok s := by
  unfold Decoder.processByte
  rw [decodeValue_noise h]
  rfl

theorem processByte_charOf (s : Decoder) {d : Nat} (hd : d < 64) :
    s.processByte (charOf d) = .ok (s.put (UInt8.ofNat d)) := by
  obtain ⟨heq, hdollar, hval⟩ := decodeValue_charOf d hd
  unfold Decoder.processByte
  simp only [heq, hdollar, hval, if_true, if_false, Bool.false_eq_true]

theorem processByte_equal {s : Decoder} (h : s.nEqualCounter < 2) :
    s.processByte chEqual = .ok { s with nEqualCounter := s.nEqualCounter + 1 } := by
  unfold Decoder.processByte
  rw [decodeValue_equal]
  simp only [beq_self_eq_true, if_true]
  rw [if_neg (by omega)]

/-- Two numbers whose bits do not meet. -/
theorem lor_eq_add {a b k : Nat} (ha : 2 ^ k ∣ a) (hb : b < 2 ^ k) : a ||| b = a + b := by
  obtain ⟨q, rfl⟩ := ha
  rw [Nat.mul_comm, ← Nat.shiftLeft_eq, Nat.shiftLeft_add_eq_or_of_lt hb]

theorem toNat_digit {x : Nat} (hx : x < 64) : (UInt8.ofNat x).toNat = x := by
  rw [UInt8.toNat_ofNat']
  omega

theorem toNat_shiftLeft_digit {x : Nat} (hx : x < 64) (k : Byte) :
    (UInt8.ofNat x <<< k).toNat = x * 2 ^ (k.toNat % 8) % 256 := by
  rw [UInt8.toNat_shiftLeft, toNat_digit hx, Nat.shiftLeft_eq]

theorem toNat_shiftRight_digit {y : Nat} (hy : y < 64) (k : Byte) :
    (UInt8.ofNat y >>> k).toNat = y / 2 ^ (k.toNat % 8) := by
  rw [UInt8.toNat_shiftRight, toNat_digit hy, Nat.shiftRight_eq_div_pow]

theorem joinHigh_eq {x y : Nat} (hx : x < 64) (hy : y < 64) :
    ((UInt8.ofNat x <<< 2) ||| (UInt8.ofNat y >>> 4)).toNat = x * 4 + y / 16 := by
  have hleft : (UInt8.ofNat x <<< 2).toNat = x * 4 := by
    have hwrap : (UInt8.ofNat x <<< 2).toNat = x * 4 % 256 := toNat_shiftLeft_digit hx 2
    omega
  have hright : (UInt8.ofNat y >>> 4).toNat = y / 16 := toNat_shiftRight_digit hy 4
  rw [UInt8.toNat_or, hleft, hright]
  exact lor_eq_add (k := 2) ⟨x, by omega⟩ (by omega)

theorem joinMiddle_eq {x y : Nat} (hx : x < 64) (hy : y < 64) :
    ((UInt8.ofNat x <<< 4) ||| (UInt8.ofNat y >>> 2)).toNat = x % 16 * 16 + y / 4 := by
  have hleft : (UInt8.ofNat x <<< 4).toNat = x % 16 * 16 := by
    rw [toNat_shiftLeft_digit hx]
    exact Nat.mul_mod_mul_right 16 x 16
  have hright : (UInt8.ofNat y >>> 2).toNat = y / 4 := toNat_shiftRight_digit hy 2
  rw [UInt8.toNat_or, hleft, hright]
  exact lor_eq_add (k := 4) ⟨x % 16, by omega⟩ (by omega)

theorem joinLow_eq {x y : Nat} (hx : x < 64) (hy : y < 64) :
    (((UInt8.ofNat x <<< 6) &&& 0xC0) ||| UInt8.ofNat y).toNat = x % 4 * 64 + y := by
  have hleft : ((UInt8.ofNat x <<< 6) &&& 0xC0).toNat = x % 4 * 64 := by
    have hmask := toNat_and_shiftLeft (UInt8.ofNat x) 0x03 6 (n := 2) rfl (by decide)
    rwa [UInt8.shiftLeft_and, toNat_digit hx] at hmask
  rw [UInt8.toNat_or, hleft, toNat_digit hy]
  exact lor_eq_add (k := 6) ⟨x % 4, by omega⟩ (by omega)

theorem digits64_lt (a b c : Byte) : ∀ d ∈ digits64 (number24 a b c), d < 64 := by
  have ha := a.toNat_lt
  have hb := b.toNat_lt
  have hc := c.toNat_lt
  intro d hd
  simp only [digits64, number24, List.mem_cons, List.not_mem_nil, or_false] at hd
  omega

/-- **The decoder puts the digits of a number together to its bytes.** -/
theorem decodeGroup_digits (a b c : Byte) :
    decodeGroup (UInt8.ofNat (number24 a b c / 64 ^ 3))
      (UInt8.ofNat (number24 a b c / 64 ^ 2 % 64)) (UInt8.ofNat (number24 a b c / 64 % 64))
      (UInt8.ofNat (number24 a b c % 64)) = [a, b, c] := by
  have ha := a.toNat_lt
  have hb := b.toNat_lt
  have hc := c.toNat_lt
  have hn : number24 a b c = a.toNat * 256 ^ 2 + b.toNat * 256 + c.toNat := rfl
  simp only [decodeGroup, List.cons.injEq, and_true]
  refine ⟨?_, ?_, ?_⟩
  · rw [← UInt8.toNat_inj, joinHigh_eq (by omega) (by omega)]
    omega
  · rw [← UInt8.toNat_inj, joinMiddle_eq (by omega) (by omega)]
    omega
  · rw [← UInt8.toNat_inj, joinLow_eq (by omega) (by omega)]
    omega

/-- The text of a group is decoded, whatever comes after it. -/
theorem feed_group (out : List Byte) (n : Nat) (a b c : Byte) (rest : List Byte) :
    feed Decoder.processByte ⟨out, [], n⟩ ((digits64 (number24 a b c)).map charOf ++ rest) =
      feed Decoder.processByte ⟨out ++ [a, b, c], [], 0⟩ rest := by
  have hlt := digits64_lt a b c
  simp only [digits64, List.forall_mem_cons, List.not_mem_nil, false_imp_iff, implies_true,
    and_true] at hlt
  obtain ⟨h₀, h₁, h₂, h₃⟩ := hlt
  simp only [digits64, List.map_cons, List.map_nil, List.cons_append, List.nil_append]
  rw [feed_cons_ok (processByte_charOf _ h₀), feed_cons_ok (processByte_charOf _ h₁),
    feed_cons_ok (processByte_charOf _ h₂), feed_cons_ok (processByte_charOf _ h₃)]
  refine congrArg (fun s => feed Decoder.processByte s rest) ?_
  rw [← decodeGroup_digits a b c]
  rfl

/-- **A text is decoded to what it is the text of.** -/
theorem feed_base64Text (data : List Byte) : ∀ (out : List Byte) (n : Nat),
    ∃ s, feed Decoder.processByte ⟨out, [], n⟩ (base64Text data) = .ok s ∧
      s.finish.lpBuffer = out ++ data := by
  induction data using base64Text.induct with
  | case1 => exact fun out n => ⟨_, rfl, (List.append_nil _).symm⟩
  | case2 a =>
    intro out n
    have hlt := digits64_lt a 0 0
    have hgroup := decodeGroup_digits a 0 0
    simp only [digits64, List.forall_mem_cons] at hlt
    obtain ⟨h₀, h₁, -⟩ := hlt
    simp only [base64Text, digits64, List.take, List.map_cons, List.map_nil, List.cons_append,
      List.nil_append]
    rw [feed_cons_ok (processByte_charOf _ h₀), feed_cons_ok (processByte_charOf _ h₁),
      feed_cons_ok (processByte_equal Nat.zero_lt_two),
      feed_cons_ok (processByte_equal Nat.one_lt_two),
      feed_nil]
    refine ⟨_, rfl, ?_⟩
    simp only [Decoder.put, Decoder.finish, List.nil_append, List.cons_append]
    simp only [decodeGroup, List.cons.injEq] at hgroup
    simp only [decodeGroup, List.take, hgroup.1]
  | case3 a b =>
    intro out n
    have hlt := digits64_lt a b 0
    have hgroup := decodeGroup_digits a b 0
    simp only [digits64, List.forall_mem_cons] at hlt
    obtain ⟨h₀, h₁, h₂, -⟩ := hlt
    simp only [base64Text, digits64, List.take, List.map_cons, List.map_nil, List.cons_append,
      List.nil_append]
    rw [feed_cons_ok (processByte_charOf _ h₀), feed_cons_ok (processByte_charOf _ h₁),
      feed_cons_ok (processByte_charOf _ h₂), feed_cons_ok (processByte_equal Nat.zero_lt_two),
      feed_nil]
    refine ⟨_, rfl, ?_⟩
    simp only [Decoder.put, Decoder.finish, List.nil_append, List.cons_append]
    simp only [decodeGroup, List.cons.injEq] at hgroup
    simp only [decodeGroup, List.take, hgroup.1, hgroup.2.1]
  | case4 a b c data ih =>
    intro out n
    rw [base64Text, feed_group]
    obtain ⟨s, hs, hout⟩ := ih (out ++ [a, b, c]) 0
    exact ⟨s, hs, by rw [hout]; simp⟩

/-- A text with other characters in it, in pieces, is decoded like the text alone. -/
theorem decode_eq (pieces : List (List Byte)) :
    decode pieces = (feed Decoder.processByte .begin (pieces.flatten.filter isBase64)).map
      fun s => s.finish.lpBuffer := by
  rw [decode, feed_filter processByte_noise]
  exact congrArg (Except.map _) (feed_flatten _ pieces)

/-- **The codec**: the encoder puts out the text of its data, of the length required,
however the data is cut; and whatever comes between the characters of that text and
however it is cut, the decoder gets the data back. -/
theorem base64_codec (data : List Byte) :
    (∀ pieces : List (List Byte), pieces.flatten = data →
      encode pieces = base64Text data ∧
        (encode pieces).length = encoderRequiredSpace data.length) ∧
    ∀ pieces : List (List Byte), pieces.flatten.filter isBase64 = base64Text data →
      decode pieces = .ok data := by
  constructor
  · rintro pieces rfl
    exact ⟨encode_eq pieces, by rw [encode_eq, length_base64Text]⟩
  · intro pieces h
    obtain ⟨s, hs, hout⟩ := feed_base64Text data [] 0
    rw [decode_eq, h, Decoder.begin, hs]
    exact congrArg Except.ok hout

example : encode [ascii "li", ascii "ght wor"] = ascii "bGlnaHQgd29y" := by decide

example : decode [ascii "bGln aH", ascii "Q-gd28="] = .ok (ascii "light wo") := by decide

end MxLib.Crypto
