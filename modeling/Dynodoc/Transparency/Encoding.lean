import Dynodoc.Log.Chain
import Dynodoc.Transparency.Merkle

/-! Lowercase hex and strict base64. A text is read byte by byte, so what is decoded is the
UTF-8 form of a text, and what is encoded are ASCII characters. -/
namespace Dynodoc.Transparency
open Log (utf8 utf8_injective asChars hexDigits hexBytes hex)
open Loop List

variable {bytes : List UInt8} {n : Nat} {text : String} {c : UInt8}

theorem utf8_ofList_asChars (ascii : ∀ b ∈ bytes, b < 128) :
    utf8 (String.ofList (asChars bytes)) = bytes := by
  induction bytes with
  | nil => rfl
  | cons b bytes ih =>
    have small : b.toNat < 128 := ascii b (by simp)
    have size : (Char.ofUInt8 b).utf8Size = 1 := by
      rw [Char.utf8Size_eq_one_iff]
      show b.toUInt32 ≤ 0x7f
      rw [UInt32.le_iff_toNat_le]
      simp
      omega
    have byte : (Char.ofUInt8 b).val.toUInt8 = b := by
      show b.toUInt32.toUInt8 = b
      simp
    have rest := ih fun c mem => ascii c (mem_cons_of_mem _ mem)
    rw [utf8, String.toByteArray_ofList] at rest ⊢
    rw [asChars, map_cons, utf8Encode_cons, utf8Encode_singleton,
      String.utf8EncodeChar_eq_singleton size, byte]
    simpa [asChars] using rest

def unhexDigit (c : UInt8) : Except Error Nat :=
  if 48 ≤ c ∧ c ≤ 57 then .ok (c.toNat - 48)
  else if 97 ≤ c ∧ c ≤ 102 then .ok (c.toNat - 97 + 10)
  else .error (.hex "only lowercase hexadecimal digits are allowed")

def unhexPairs : List UInt8 → Except Error (List UInt8)
  | high :: low :: rest => do
    let high ← unhexDigit high
    let low ← unhexDigit low
    let bytes ← unhexPairs rest
    .ok (UInt8.ofNat (high * 16 + low) :: bytes)
  | _ => .ok []

def unhex (text : String) : Except Error (List UInt8) :=
  if (utf8 text).length % 2 ≠ 0 then .error (.hex "odd length") else unhexPairs (utf8 text)

def alphabet : List UInt8 :=
  utf8 "ABCDEFGHIJKLMNOPQRSTUVWXYZabcdefghijklmnopqrstuvwxyz0123456789+/"

def digit (n : Nat) : UInt8 := alphabet.getD n 0

/-- The bits of up to three bytes, as the upper ones of three. -/
def group (chunk : List UInt8) : Nat :=
  chunk.zipIdx.foldl (fun n (b, i) => n + b.toNat * 2 ^ (16 - 8 * i)) 0

def encodeChunk (chunk : List UInt8) : List UInt8 :=
  (List.range 4).map fun i =>
    if i ≤ chunk.length then digit (group chunk / 2 ^ (18 - 6 * i) % 64) else 61

def b64Bytes : List UInt8 → List UInt8
  | [] => []
  | a :: b :: c :: rest => encodeChunk [a, b, c] ++ b64Bytes rest
  | chunk => encodeChunk chunk

def b64 (bytes : List UInt8) : String := String.ofList (asChars (b64Bytes bytes))

def sextet (c : UInt8) : Except Error Nat :=
  if 65 ≤ c ∧ c ≤ 90 then .ok (c.toNat - 65)
  else if 97 ≤ c ∧ c ≤ 122 then .ok (c.toNat - 97 + 26)
  else if 48 ≤ c ∧ c ≤ 57 then .ok (c.toNat - 48 + 52)
  else if c = 43 then .ok 62
  else if c = 47 then .ok 63
  else .error (.base64 "character outside the standard alphabet")

def shiftIn (n : Nat) (c : UInt8) : Except Error Nat := do
  let low ← sextet c
  .ok (n * 64 + low)

/-- The bytes of four characters; padding stands at the end of the last four only, and the
bits that it stands for are zero. -/
def decodeQuad (last : Bool) (quad : List UInt8) : Except Error (List UInt8) :=
  let pad := (quad.reverse.takeWhile (· = 61)).length
  if pad > 2 ∨ (pad > 0 ∧ ¬ last) then .error (.base64 "misplaced padding")
  else do
    let high ← (quad.take (4 - pad)).foldlM shiftIn 0
    let n := high * 64 ^ pad
    if n % 256 ^ pad ≠ 0 then .error (.base64 "non-canonical final group")
    else .ok (([n / 65536, n / 256 % 256, n % 256].take (3 - pad)).map UInt8.ofNat)

def unb64Bytes : List UInt8 → Except Error (List UInt8)
  | a :: b :: c :: d :: rest => do
    let front ← decodeQuad rest.isEmpty [a, b, c, d]
    let back ← unb64Bytes rest
    .ok (front ++ back)
  | _ => .ok []

def unb64 (text : String) : Except Error (List UInt8) :=
  let bytes := utf8 text
  if bytes.length % 4 ≠ 0 then .error (.base64 "length is not a multiple of four")
  else unb64Bytes bytes

theorem unhexDigit_of_lt (small : n < 16) :
    unhexDigit (hexDigits.getD n 0) = .ok n ∧ hexDigits.getD n 0 < 128 ∧ hexDigits.getD n 0 ≠ 43 :=
  (by decide +kernel : ∀ n < 16, unhexDigit (hexDigits.getD n 0) = .ok n ∧
    hexDigits.getD n 0 < 128 ∧ hexDigits.getD n 0 ≠ 43) n small

theorem hexDigits_of_unhexDigit (read : unhexDigit c = .ok n) :
    n < 16 ∧ hexDigits.getD n 0 = c := by
  have all : ∀ i : Fin 256, ∀ n ∈ (unhexDigit (UInt8.ofFin i)).toOption,
      n < 16 ∧ hexDigits.getD n 0 = UInt8.ofFin i := by
    decide +kernel
  have here := all c.toFin n
  rw [UInt8.ofFin_toFin, read] at here
  exact here rfl

theorem mem_hexBytes {digit : UInt8} (mem : digit ∈ hexBytes bytes) :
    ∃ n < 16, digit = hexDigits.getD n 0 := by
  obtain ⟨b, -, mem⟩ := mem_flatMap.1 mem
  have bound := b.toNat_lt
  rcases mem_cons.1 mem with rfl | mem
  · exact ⟨b.toNat / 16, by omega, rfl⟩
  · exact ⟨b.toNat % 16, by omega, mem_singleton.1 mem⟩

theorem length_hexBytes (bytes : List UInt8) : (hexBytes bytes).length = bytes.length * 2 := by
  simp [hexBytes]

theorem utf8_hex (bytes : List UInt8) : utf8 (hex bytes) = hexBytes bytes := by
  refine utf8_ofList_asChars fun digit mem => ?_
  obtain ⟨n, small, rfl⟩ := mem_hexBytes mem
  exact (unhexDigit_of_lt small).2.1

theorem unhexPairs_eq_ok {text : List UInt8} (whole : text.length % 2 = 0) :
    unhexPairs text = .ok bytes ↔ hexBytes bytes = text := by
  fun_induction unhexPairs text generalizing bytes with
  | case1 high low rest ih =>
    have even : rest.length % 2 = 0 := by
      simp at whole
      omega
    simp only [bind_eq_ok, ih even]
    constructor
    · rintro ⟨upper, readHigh, lower, readLow, bytes, rfl, ⟨⟩⟩
      obtain ⟨smallHigh, rfl⟩ := hexDigits_of_unhexDigit readHigh
      obtain ⟨smallLow, rfl⟩ := hexDigits_of_unhexDigit readLow
      have byte : (UInt8.ofNat (upper * 16 + lower)).toNat = upper * 16 + lower :=
        UInt8.toNat_ofNat_of_lt' (show _ < 256 by omega)
      have first : (upper * 16 + lower) / 16 = upper := by omega
      have second : (upper * 16 + lower) % 16 = lower := by omega
      rw [hexBytes, flatMap_cons, byte, first, second]
      rfl
    · intro written
      cases bytes with
      | nil => contradiction
      | cons b bytes =>
        have bound := b.toNat_lt
        rw [hexBytes, flatMap_cons, cons_append] at written
        injection written with readHigh written
        injection written with readLow rest
        have byte : b.toNat / 16 * 16 + b.toNat % 16 = b.toNat := by omega
        refine ⟨b.toNat / 16, readHigh ▸ (unhexDigit_of_lt (by omega)).1, b.toNat % 16,
          readLow ▸ (unhexDigit_of_lt (by omega)).1, bytes, rest, ?_⟩
        rw [byte, UInt8.ofNat_toNat]
  | case2 text short =>
    match text, short with
    | [], _ => cases bytes <;> simp [hexBytes]
    | [_], _ => simp at whole
    | a :: b :: rest, short => exact absurd rfl (short a b rest)

theorem unhex_eq_ok : unhex text = .ok bytes ↔ hex bytes = text := by
  rw [unhex, guard_eq_ok, not_not]
  constructor
  · rintro ⟨whole, decoded⟩
    apply utf8_injective
    rw [utf8_hex, (unhexPairs_eq_ok whole).1 decoded]
  · rintro rfl
    have whole : (utf8 (hex bytes)).length % 2 = 0 := by simp [utf8_hex, length_hexBytes]
    exact ⟨whole, (unhexPairs_eq_ok whole).2 (utf8_hex bytes).symm⟩

theorem sextet_digit : ∀ n : Fin 64, sextet (digit n) = .ok n.val ∧ digit n ≠ 61 ∧ digit n < 127 ∧
    33 ≤ digit n := by
  decide +kernel

theorem sextet_of_lt (small : n < 64) : sextet (digit n) = .ok n := (sextet_digit ⟨n, small⟩).1

theorem digit_ne_pad (small : n < 64) : digit n ≠ 61 := (sextet_digit ⟨n, small⟩).2.1

theorem digit_printable (small : n < 64) : 33 ≤ digit n ∧ digit n < 127 :=
  (sextet_digit ⟨n, small⟩).2.2.symm

theorem digit_sextet (read : sextet c = .ok n) : n < 64 ∧ digit n = c := by
  have all : ∀ i : Fin 256, ∀ n ∈ (sextet (UInt8.ofFin i)).toOption,
      n < 64 ∧ digit n = UInt8.ofFin i := by
    decide +kernel
  have here := all c.toFin n
  rw [UInt8.ofFin_toFin, read] at here
  exact here rfl

theorem encodeChunk_three (x y z : UInt8) : encodeChunk [x, y, z] =
    [digit (x.toNat / 4), digit (x.toNat % 4 * 16 + y.toNat / 16),
      digit (y.toNat % 16 * 4 + z.toNat / 64), digit (z.toNat % 64)] := by
  have hx := x.toNat_lt
  have hy := y.toNat_lt
  have hz := z.toNat_lt
  have bits : group [x, y, z] = x.toNat * 65536 + y.toNat * 256 + z.toNat := by simp [group]
  have digits : encodeChunk [x, y, z] = [digit (group [x, y, z] / 262144 % 64),
    digit (group [x, y, z] / 4096 % 64), digit (group [x, y, z] / 64 % 64),
    digit (group [x, y, z] / 1 % 64)] := rfl
  have first : group [x, y, z] / 262144 % 64 = x.toNat / 4 := by omega
  have second : group [x, y, z] / 4096 % 64 = x.toNat % 4 * 16 + y.toNat / 16 := by omega
  have third : group [x, y, z] / 64 % 64 = y.toNat % 16 * 4 + z.toNat / 64 := by omega
  have fourth : group [x, y, z] / 1 % 64 = z.toNat % 64 := by omega
  rw [digits, first, second, third, fourth]

theorem encodeChunk_two (x y : UInt8) : encodeChunk [x, y] =
    [digit (x.toNat / 4), digit (x.toNat % 4 * 16 + y.toNat / 16), digit (y.toNat % 16 * 4), 61] := by
  have cut : encodeChunk [x, y] = (encodeChunk [x, y, 0]).take 3 ++ [61] := rfl
  rw [cut, encodeChunk_three]
  rfl

theorem encodeChunk_one (x : UInt8) :
    encodeChunk [x] = [digit (x.toNat / 4), digit (x.toNat % 4 * 16), 61, 61] := by
  have cut : encodeChunk [x] = (encodeChunk [x, 0]).take 2 ++ [61, 61] := rfl
  rw [cut, encodeChunk_two]
  rfl

section Quads

variable {last : Bool} {a b d : UInt8} {out : List UInt8}

theorem shiftIn_eq_ok {m : Nat} :
    shiftIn n c = .ok m ↔ ∃ low, sextet c = .ok low ∧ n * 64 + low = m := by
  rw [shiftIn, bind_eq_ok]
  simp

def ReadAs (chars : List UInt8) (values : List Nat) : Prop :=
  List.Forall₂ (fun c n => sextet c = .ok n) chars values

def joined (values : List Nat) : Nat := values.foldl (fun n low => n * 64 + low) 0

theorem foldlM_shiftIn {chars : List UInt8} :
    chars.foldlM shiftIn 0 = .ok n ↔ ∃ values, ReadAs chars values ∧ joined values = n := by
  have go (start : Nat) : chars.foldlM shiftIn start = .ok n ↔
      ∃ values, ReadAs chars values ∧ values.foldl (fun n low => n * 64 + low) start = n := by
    induction chars generalizing start with
    | nil => simp [ReadAs, pure, Except.pure]
    | cons c chars ih =>
      simp only [foldlM_cons, bind_eq_ok, shiftIn_eq_ok, ih, ReadAs, forall₂_cons_left_iff]
      constructor
      · rintro ⟨_, ⟨low, read, rfl⟩, values, rest, same⟩
        exact ⟨low :: values, ⟨low, values, read, rest, rfl⟩, same⟩
      · rintro ⟨_, ⟨low, values, read, rest, rfl⟩, same⟩
        exact ⟨_, ⟨low, read, rfl⟩, values, rest, same⟩
  exact go 0

theorem decodeQuad_eq_ok {quad : List UInt8}
    (padded : (quad.reverse.takeWhile (· = 61)).length = n) :
    decodeQuad last quad = .ok out ↔ n ≤ 2 ∧ (n = 0 ∨ last = true) ∧
      ∃ values, ReadAs (quad.take (4 - n)) values ∧ joined values * 64 ^ n % 256 ^ n = 0 ∧
        ([joined values * 64 ^ n / 65536, joined values * 64 ^ n / 256 % 256,
          joined values * 64 ^ n % 256].take (3 - n)).map UInt8.ofNat = out := by
  rw [decodeQuad, padded]
  split
  · rename_i misplaced
    simp only [reduceCtorEq, false_iff]
    rintro ⟨few, plain | isLast, -⟩
    · omega
    simp_all
    omega
  · rename_i placed
    have placement : n ≤ 2 ∧ (n = 0 ∨ last = true) := by
      simp only [not_or, not_and, Decidable.not_not] at placed
      exact ⟨by omega, (Nat.eq_zero_or_pos n).imp_right placed.2⟩
    simp only [bind_eq_ok, foldlM_shiftIn]
    constructor
    · rintro ⟨_, ⟨values, read, rfl⟩, done⟩
      obtain ⟨canonical, done⟩ := guard_eq_ok.1 done
      exact ⟨placement.1, placement.2, values, read, not_not.1 canonical, Except.ok.inj done⟩
    · rintro ⟨-, -, values, read, canonical, rfl⟩
      exact ⟨_, ⟨values, read, rfl⟩, if_neg (not_not.2 canonical)⟩

theorem ofNat_toNat (n : Nat) : (UInt8.ofNat n).toNat = n % 256 := by simp

theorem encode_full {p q r s : Nat} (hp : p < 64) (hq : q < 64) (hr : r < 64) (hs : s < 64) :
    encodeChunk ([joined [p, q, r, s] / 65536, joined [p, q, r, s] / 256 % 256,
      joined [p, q, r, s] % 256].map UInt8.ofNat) = [digit p, digit q, digit r, digit s] := by
  have bits : joined [p, q, r, s] = ((p * 64 + q) * 64 + r) * 64 + s := by simp [joined]
  rw [map_cons, map_cons, map_cons, map_nil, encodeChunk_three]
  simp only [ofNat_toNat]
  have first : joined [p, q, r, s] / 65536 % 256 / 4 = p := by omega
  have second : joined [p, q, r, s] / 65536 % 256 % 4 * 16 +
      joined [p, q, r, s] / 256 % 256 % 256 / 16 = q := by omega
  have third : joined [p, q, r, s] / 256 % 256 % 256 % 16 * 4 +
      joined [p, q, r, s] % 256 % 256 / 64 = r := by omega
  have fourth : joined [p, q, r, s] % 256 % 256 % 64 = s := by omega
  rw [first, second, third, fourth]

theorem encode_padded {p q r : Nat} (hp : p < 64) (hq : q < 64) (hr : r < 64)
    (canonical : joined [p, q, r] * 64 ^ 1 % 256 ^ 1 = 0) :
    encodeChunk ([joined [p, q, r] * 64 ^ 1 / 65536, joined [p, q, r] * 64 ^ 1 / 256 % 256].map
      UInt8.ofNat) = [digit p, digit q, digit r, 61] := by
  have whole := encode_full hp hq hr (s := 0) (by decide)
  have bits : joined [p, q, r, 0] = joined [p, q, r] * 64 ^ 1 := by simp [joined]
  rw [bits, show joined [p, q, r] * 64 ^ 1 % 256 = 0 from canonical] at whole
  exact congrArg (fun quad => quad.take 3 ++ [61]) whole

theorem encode_twice_padded {p q : Nat} (hp : p < 64) (hq : q < 64)
    (canonical : joined [p, q] * 64 ^ 2 % 256 ^ 2 = 0) :
    encodeChunk ([joined [p, q] * 64 ^ 2 / 65536].map UInt8.ofNat) = [digit p, digit q, 61, 61] := by
  have bits : joined [p, q, 0] * 64 ^ 1 = joined [p, q] * 64 ^ 2 := by simp [joined]; omega
  have whole := encode_padded hp hq (r := 0) (by decide) (by rw [bits]; omega)
  have zero : joined [p, q] * 64 ^ 2 / 256 % 256 = 0 := by omega
  rw [bits, zero] at whole
  exact congrArg (fun quad => quad.take 2 ++ [61, 61]) whole

theorem encodeChunk_of_decodeQuad (decoded : decodeQuad last [a, b, c, d] = .ok out) :
    encodeChunk out = [a, b, c, d] ∧
      (out.length = 3 ∨ last = true ∧ (out.length = 1 ∨ out.length = 2)) := by
  by_cases hd : d = 61
  · by_cases hc : c = 61
    · by_cases hb : b = 61
      · obtain ⟨few, -⟩ := (decodeQuad_eq_ok rfl).1 decoded
        simp [hd, hc, hb] at few
      · have padded : ([a, b, c, d].reverse.takeWhile (· = 61)).length = 2 := by simp [hd, hc, hb]
        obtain ⟨-, isLast, values, read, canonical, rfl⟩ := (decodeQuad_eq_ok padded).1 decoded
        rcases read with _ | ⟨readA, _ | ⟨readB, _ | _⟩⟩
        obtain ⟨hp, rfl⟩ := digit_sextet readA
        obtain ⟨hq, rfl⟩ := digit_sextet readB
        rw [hc, hd]
        exact ⟨encode_twice_padded hp hq canonical, .inr ⟨isLast.resolve_left nofun, .inl rfl⟩⟩
    · have padded : ([a, b, c, d].reverse.takeWhile (· = 61)).length = 1 := by simp [hd, hc]
      obtain ⟨-, isLast, values, read, canonical, rfl⟩ := (decodeQuad_eq_ok padded).1 decoded
      rcases read with _ | ⟨readA, _ | ⟨readB, _ | ⟨readC, _ | _⟩⟩⟩
      obtain ⟨hp, rfl⟩ := digit_sextet readA
      obtain ⟨hq, rfl⟩ := digit_sextet readB
      obtain ⟨hr, rfl⟩ := digit_sextet readC
      rw [hd]
      exact ⟨encode_padded hp hq hr canonical, .inr ⟨isLast.resolve_left nofun, .inr rfl⟩⟩
  · have padded : ([a, b, c, d].reverse.takeWhile (· = 61)).length = 0 := by simp [hd]
    obtain ⟨-, -, values, read, -, rfl⟩ := (decodeQuad_eq_ok padded).1 decoded
    rcases read with _ | ⟨readA, _ | ⟨readB, _ | ⟨readC, _ | ⟨readD, _ | _⟩⟩⟩⟩
    obtain ⟨hp, rfl⟩ := digit_sextet readA
    obtain ⟨hq, rfl⟩ := digit_sextet readB
    obtain ⟨hr, rfl⟩ := digit_sextet readC
    obtain ⟨hs, rfl⟩ := digit_sextet readD
    exact ⟨by simpa using encode_full hp hq hr hs, .inl rfl⟩

theorem bytes_of_bits {x y z : UInt8} (bits : n = x.toNat * 65536 + y.toNat * 256 + z.toNat) :
    [n / 65536, n / 256 % 256, n % 256].map UInt8.ofNat = [x, y, z] := by
  have hx := x.toNat_lt
  have hy := y.toNat_lt
  have hz := z.toNat_lt
  have first : n / 65536 = x.toNat := by omega
  have second : n / 256 % 256 = y.toNat := by omega
  have third : n % 256 = z.toNat := by omega
  simp [first, second, third]

theorem decodeQuad_three (last : Bool) (x y z : UInt8) :
    decodeQuad last (encodeChunk [x, y, z]) = .ok [x, y, z] := by
  have hx := x.toNat_lt
  have hy := y.toNat_lt
  have hz := z.toNat_lt
  rw [encodeChunk_three]
  have plain : digit (z.toNat % 64) ≠ 61 := digit_ne_pad (by omega)
  refine (decodeQuad_eq_ok (n := 0) (by simp [plain])).2 ⟨by decide, .inl rfl, _,
    .cons (sextet_of_lt (by omega)) (.cons (sextet_of_lt (by omega))
      (.cons (sextet_of_lt (by omega)) (.cons (sextet_of_lt (by omega)) .nil))), Nat.mod_one _,
    bytes_of_bits ?_⟩
  simp only [joined, foldl_cons, foldl_nil]
  omega

theorem decodeQuad_two (x y : UInt8) : decodeQuad true (encodeChunk [x, y]) = .ok [x, y] := by
  have hx := x.toNat_lt
  have hy := y.toNat_lt
  rw [encodeChunk_two]
  have plain : digit (y.toNat % 16 * 4) ≠ 61 := digit_ne_pad (by omega)
  have bits : joined [x.toNat / 4, x.toNat % 4 * 16 + y.toNat / 16, y.toNat % 16 * 4] * 64 ^ 1 =
      x.toNat * 65536 + y.toNat * 256 + UInt8.toNat 0 := by
    simp only [joined, foldl_cons, foldl_nil, UInt8.toNat_zero]
    omega
  refine (decodeQuad_eq_ok (n := 1) (by simp [plain])).2 ⟨by decide, .inr rfl, _,
    .cons (sextet_of_lt (by omega)) (.cons (sextet_of_lt (by omega))
      (.cons (sextet_of_lt (by omega)) .nil)), ?_, congrArg (List.take 2) (bytes_of_bits bits)⟩
  rw [bits, UInt8.toNat_zero]
  omega

theorem decodeQuad_one (x : UInt8) : decodeQuad true (encodeChunk [x]) = .ok [x] := by
  have hx := x.toNat_lt
  rw [encodeChunk_one]
  have plain : digit (x.toNat % 4 * 16) ≠ 61 := digit_ne_pad (by omega)
  have bits : joined [x.toNat / 4, x.toNat % 4 * 16] * 64 ^ 2 =
      x.toNat * 65536 + UInt8.toNat 0 * 256 + UInt8.toNat 0 := by
    simp only [joined, foldl_cons, foldl_nil, UInt8.toNat_zero]
    omega
  refine (decodeQuad_eq_ok (n := 2) (by simp [plain])).2 ⟨by decide, .inr rfl, _,
    .cons (sextet_of_lt (by omega)) (.cons (sextet_of_lt (by omega)) .nil), ?_,
    congrArg (List.take 1) (bytes_of_bits bits)⟩
  rw [bits, UInt8.toNat_zero]
  omega

end Quads

theorem encodeChunk_length (chunk : List UInt8) : (encodeChunk chunk).length = 4 := by
  simp [encodeChunk]

theorem b64Bytes_length (bytes : List UInt8) : (b64Bytes bytes).length % 4 = 0 := by
  fun_induction b64Bytes with
  | case1 => rfl
  | case2 a b c rest ih => rw [length_append, encodeChunk_length, Nat.add_mod_left, ih]
  | case3 chunk => rw [encodeChunk_length]

theorem b64Bytes_all {P : UInt8 → Prop} (digits : ∀ n < 64, P (digit n)) (pad : P 61)
    (bytes : List UInt8) : ∀ b ∈ b64Bytes bytes, P b := by
  have chunks (chunk : List UInt8) : ∀ b ∈ encodeChunk chunk, P b := by
    intro b mem
    obtain ⟨i, -, rfl⟩ := mem_map.1 mem
    split
    · exact digits _ (Nat.mod_lt _ (by decide))
    · exact pad
  fun_induction b64Bytes with
  | case1 => simp
  | case2 a b c rest ih => exact forall_mem_append.2 ⟨chunks _, ih⟩
  | case3 chunk => exact chunks chunk

theorem unb64Bytes_quad (chunk rest : List UInt8) :
    unb64Bytes (encodeChunk chunk ++ rest) = decodeQuad rest.isEmpty (encodeChunk chunk) >>= fun front =>
      unb64Bytes rest >>= fun back => .ok (front ++ back) := by
  rfl

theorem unb64Bytes_b64Bytes (bytes : List UInt8) : unb64Bytes (b64Bytes bytes) = .ok bytes := by
  fun_induction b64Bytes with
  | case1 => rfl
  | case2 a b c rest ih =>
    rw [unb64Bytes_quad, decodeQuad_three, ih]
    rfl
  | case3 chunk some short =>
    rw [← append_nil (encodeChunk chunk), unb64Bytes_quad]
    match chunk, some, short with
    | [a], _, _ => rw [isEmpty_nil, decodeQuad_one]; rfl
    | [a, b], _, _ => rw [isEmpty_nil, decodeQuad_two]; rfl
    | a :: b :: c :: rest, _, short => exact absurd rfl (short a b c rest)

theorem b64Bytes_unb64Bytes {text : List UInt8} (whole : text.length % 4 = 0)
    (decoded : unb64Bytes text = .ok bytes) : b64Bytes bytes = text := by
  fun_induction unb64Bytes generalizing bytes with
  | case1 a b c d rest ih =>
    obtain ⟨front, quad, decoded⟩ := bind_eq_ok.1 decoded
    obtain ⟨back, tail, same⟩ := bind_eq_ok.1 decoded
    cases same
    have again := ih (by rw [length_cons, length_cons, length_cons, length_cons] at whole; omega) tail
    obtain ⟨text, three | ⟨isLast, short⟩⟩ := encodeChunk_of_decodeQuad quad
    · obtain ⟨x, y, z, rfl⟩ := length_eq_three.1 three
      rw [cons_append, cons_append, cons_append, nil_append, b64Bytes, text, again]
      rfl
    · obtain rfl := List.isEmpty_iff.1 isLast
      cases tail
      rcases short with one | two
      · obtain ⟨x, rfl⟩ := length_eq_one_iff.1 one
        exact text
      · obtain ⟨x, y, rfl⟩ := length_eq_two.1 two
        exact text
  | case2 text short =>
    cases decoded
    match text, short with
    | [], _ => rfl
    | [_], _ | [_, _], _ | [_, _, _], _ => simp at whole
    | a :: b :: c :: d :: rest, short => exact absurd rfl (short a b c d rest)

theorem b64Bytes_printable (bytes : List UInt8) : ∀ b ∈ b64Bytes bytes, 33 ≤ b ∧ b < 127 :=
  b64Bytes_all (fun _ => digit_printable) (by decide) bytes

theorem utf8_b64 (bytes : List UInt8) : utf8 (b64 bytes) = b64Bytes bytes :=
  utf8_ofList_asChars fun b mem => UInt8.lt_trans (b64Bytes_printable bytes b mem).2 (by decide)

theorem unb64_b64 (bytes : List UInt8) : unb64 (b64 bytes) = .ok bytes := by
  rw [unb64, utf8_b64, if_neg (by simp [b64Bytes_length]), unb64Bytes_b64Bytes]

theorem b64_of_unb64 (decoded : unb64 text = .ok bytes) : b64 bytes = text := by
  obtain ⟨whole, decoded⟩ := guard_eq_ok.1 decoded
  refine utf8_injective ?_
  rw [utf8_b64]
  exact b64Bytes_unb64Bytes (not_not.1 whole) decoded

theorem decoders_accept_one_spelling (text : String) (bytes : List UInt8) :
    (unb64 text = .ok bytes ↔ text = b64 bytes) ∧ (unhex text = .ok bytes ↔ text = hex bytes) := by
  refine ⟨⟨fun decoded => (b64_of_unb64 decoded).symm, ?_⟩, unhex_eq_ok.trans eq_comm⟩
  rintro rfl
  exact unb64_b64 bytes

end Dynodoc.Transparency
