import AnonyChat.Lib.CString
import Mathlib.Data.Fintype.Basic
import Mathlib.Tactic.IntervalCases

/-! # The Base64 coder (`base64.c`)

`Base64encode` reads its input through `const char*`, so a byte of 128 or more
enters the arithmetic as a negative `int`; the model keeps that sign extension
and the 32-bit shifts and masks that follow it.  `Base64decode` reads
`unsigned char` and stops at the first character outside the alphabet.

The result of the module is `Base64decode_encode`: decoding the encoding of any
byte string gives the bytes back, whatever text follows the encoding, provided
that text starts outside the alphabet.
-/
namespace AnonyChat
open CString

/-- The `int` a `char` is promoted to; `char` is signed. -/
def char_int (c : UInt8) : BitVec 32 := c.toBitVec.signExtend 32

/-- The alphabet as `Base64encode` indexes it. -/
def basis_64_chars : List Char :=
  ['A', 'B', 'C', 'D', 'E', 'F', 'G', 'H', 'I', 'J', 'K', 'L', 'M', 'N', 'O', 'P',
   'Q', 'R', 'S', 'T', 'U', 'V', 'W', 'X', 'Y', 'Z', 'a', 'b', 'c', 'd', 'e', 'f',
   'g', 'h', 'i', 'j', 'k', 'l', 'm', 'n', 'o', 'p', 'q', 'r', 's', 't', 'u', 'v',
   'w', 'x', 'y', 'z', '0', '1', '2', '3', '4', '5', '6', '7', '8', '9', '+', '/']

/-- `basis_64[i]`. -/
def basis_64 (i : BitVec 32) : UInt8 := UInt8.ofNat (basis_64_chars.getD i.toNat 'A').toNat

/-- The decoding table: the value of an alphabet character, 64 for every other byte. -/
def pr2six_table : List UInt8 :=
  [64, 64, 64, 64, 64, 64, 64, 64, 64, 64, 64, 64, 64, 64, 64, 64,
   64, 64, 64, 64, 64, 64, 64, 64, 64, 64, 64, 64, 64, 64, 64, 64,
   64, 64, 64, 64, 64, 64, 64, 64, 64, 64, 64, 62, 64, 64, 64, 63,
   52, 53, 54, 55, 56, 57, 58, 59, 60, 61, 64, 64, 64, 64, 64, 64,
   64,  0,  1,  2,  3,  4,  5,  6,  7,  8,  9, 10, 11, 12, 13, 14,
   15, 16, 17, 18, 19, 20, 21, 22, 23, 24, 25, 64, 64, 64, 64, 64,
   64, 26, 27, 28, 29, 30, 31, 32, 33, 34, 35, 36, 37, 38, 39, 40,
   41, 42, 43, 44, 45, 46, 47, 48, 49, 50, 51, 64, 64, 64, 64, 64]
  ++ List.replicate 128 64

/-- `pr2six[c]`. -/
def pr2six (c : UInt8) : UInt8 := pr2six_table.getD c.toNat 64

/-- The test of both scanning loops: the character is in the alphabet. -/
def in_alphabet (c : UInt8) : Bool := pr2six c ≤ 63

/-- `nprbytes` after the scan: the characters before the first one outside the
alphabet.  The terminator is outside it, so the scan never leaves the string. -/
def coded (bufcoded : Str) : Str := bufcoded.takeWhile in_alphabet

/-- `Base64decode_len`. -/
def Base64decode_len (bufcoded : Str) : Nat :=
  let nprbytes := (coded bufcoded).length
  ((nprbytes + 3) / 4) * 3 + 1

/-- The first of the three bytes four characters stand for. -/
def decode_byte0 (a b : UInt8) : UInt8 := pr2six a <<< 2 ||| pr2six b >>> 4
/-- The second of the three bytes. -/
def decode_byte1 (b c : UInt8) : UInt8 := pr2six b <<< 4 ||| pr2six c >>> 2
/-- The third of the three bytes. -/
def decode_byte2 (c d : UInt8) : UInt8 := pr2six c <<< 6 ||| pr2six d

/-- The decoding loop over the `nprbytes` scanned characters: groups of four
while more than four are left, then the one to four that remain.  A single
remaining character is ignored. -/
def decode_groups : List UInt8 → List UInt8
  | a :: b :: c :: d :: e :: rest =>
    decode_byte0 a b :: decode_byte1 b c :: decode_byte2 c d :: decode_groups (e :: rest)
  | [a, b, c, d] => [decode_byte0 a b, decode_byte1 b c, decode_byte2 c d]
  | [a, b, c] => [decode_byte0 a b, decode_byte1 b c]
  | [a, b] => [decode_byte0 a b]
  | _ => []

/-- `Base64decode`: the bytes written to `bufplain` before its terminator. -/
def Base64decode (bufcoded : Str) : List UInt8 := decode_groups (coded bufcoded)

/-- What the decoding loop leaves of `nprbytes`. -/
def nprbytes_left : Nat → Nat
  | n + 5 => nprbytes_left (n + 1)
  | n => n

/-- The value `Base64decode` returns; `& 3` is the remainder by four. -/
def Base64decode_ret (bufcoded : Str) : Nat :=
  let nprbytes := (coded bufcoded).length
  ((nprbytes + 3) / 4) * 3 - (4 - nprbytes_left nprbytes) % 4

/-- `Base64encode_len`. -/
def Base64encode_len (len : Int) : Int := ((len + 2) / 3 * 4) + 1

/-- The first character of a group. -/
def encode_char0 (a : UInt8) : UInt8 := basis_64 ((char_int a).sshiftRight 2 &&& 0x3F#32)
/-- The second character, from two bytes. -/
def encode_char1 (a b : UInt8) : UInt8 :=
  basis_64 ((char_int a &&& 0x3#32) <<< 4 ||| (char_int b &&& 0xF0#32).sshiftRight 4)
/-- The second character, when only one byte is left. -/
def encode_char1_last (a : UInt8) : UInt8 := basis_64 ((char_int a &&& 0x3#32) <<< 4)
/-- The third character, from two bytes. -/
def encode_char2 (b c : UInt8) : UInt8 :=
  basis_64 ((char_int b &&& 0xF#32) <<< 2 ||| (char_int c &&& 0xC0#32).sshiftRight 6)
/-- The third character, when only two bytes are left. -/
def encode_char2_last (b : UInt8) : UInt8 := basis_64 ((char_int b &&& 0xF#32) <<< 2)
/-- The fourth character. -/
def encode_char3 (c : UInt8) : UInt8 := basis_64 (char_int c &&& 0x3F#32)

/-- The padding character `=`. -/
def pad_char : UInt8 := 61

/-- `Base64encode`: the string written to `encoded` for the bytes of `string`.
The function returns its length plus one. -/
def Base64encode : List UInt8 → Str
  | a :: b :: c :: rest =>
    encode_char0 a :: encode_char1 a b :: encode_char2 b c :: encode_char3 c :: Base64encode rest
  | [a, b] => [encode_char0 a, encode_char1 a b, encode_char2_last b, pad_char]
  | [a] => [encode_char0 a, encode_char1_last a, pad_char, pad_char]
  | [] => []

/-! ## The sextets of a group -/

/-- A property of all bytes is checked on the 256 values. -/
theorem forall_byte {p : UInt8 → Prop} (h : ∀ n, n < 256 → p (UInt8.ofNat n)) (c : UInt8) :
    p c := by
  have hc := h c.toNat c.toNat_lt
  simpa using hc

/-- The parts of a byte that the encoder keeps: the sign extension does not reach them. -/
theorem char_int_parts (c : UInt8) :
    ((char_int c).sshiftRight 2 &&& 0x3F#32).toNat = c.toNat / 4 ∧
      ((char_int c &&& 0x3#32) <<< 4).toNat = c.toNat % 4 * 16 ∧
      ((char_int c &&& 0xF0#32).sshiftRight 4).toNat = c.toNat / 16 ∧
      ((char_int c &&& 0xF#32) <<< 2).toNat = c.toNat % 16 * 4 ∧
      ((char_int c &&& 0xC0#32).sshiftRight 6).toNat = c.toNat / 64 ∧
      (char_int c &&& 0x3F#32).toNat = c.toNat % 64 := by
  revert c
  exact forall_byte (by decide +kernel)

/-- An alphabet character decodes to its index. -/
theorem pr2six_basis_64 {i : BitVec 32} (hi : i.toNat < 64) :
    pr2six (basis_64 i) = UInt8.ofNat i.toNat := by
  have hall : ∀ n, n < 64 →
      pr2six (UInt8.ofNat (basis_64_chars.getD n 'A').toNat) = UInt8.ofNat n := by
    decide
  exact hall i.toNat hi

theorem in_alphabet_basis_64 {i : BitVec 32} (hi : i.toNat < 64) :
    in_alphabet (basis_64 i) = true := by
  have hle : UInt8.ofNat i.toNat ≤ 63 := by
    rw [UInt8.le_iff_toNat_le, UInt8.toNat_ofNat']
    show i.toNat % 256 ≤ 63
    omega
  rw [in_alphabet, pr2six_basis_64 hi]
  exact decide_eq_true hle

/-- The padding, the terminator and the space are not in the alphabet. -/
theorem not_in_alphabet :
    in_alphabet pad_char = false ∧ in_alphabet 0 = false ∧ in_alphabet 32 = false := by
  decide

/-- The bits of two masked parts do not overlap, so `|` adds them. -/
theorem toNat_or_16 {u v : BitVec 32} {m n : Nat} (hu : u.toNat = m * 16) (hv : v.toNat = n)
    (hn : n < 16) : (u ||| v).toNat = m * 16 + n := by
  rw [BitVec.toNat_or, hu, hv, Nat.mul_comm, ← Nat.two_pow_add_eq_or_of_lt (i := 4) hn]

theorem toNat_or_4 {u v : BitVec 32} {m n : Nat} (hu : u.toNat = m * 4) (hv : v.toNat = n)
    (hn : n < 4) : (u ||| v).toNat = m * 4 + n := by
  rw [BitVec.toNat_or, hu, hv, Nat.mul_comm, ← Nat.two_pow_add_eq_or_of_lt (i := 2) hn]

/-- The sextet a character carries: it is in the alphabet and decodes to `n`. -/
def Sextet (c : UInt8) (n : Nat) : Prop :=
  n < 64 ∧ in_alphabet c = true ∧ pr2six c = UInt8.ofNat n

theorem sextet_basis_64 {i : BitVec 32} {n : Nat} (h : i.toNat = n) (hn : n < 64) :
    Sextet (basis_64 i) n := by
  subst h
  exact ⟨hn, in_alphabet_basis_64 hn, pr2six_basis_64 hn⟩

theorem sextet_char0 (a : UInt8) : Sextet (encode_char0 a) (a.toNat / 4) := by
  obtain ⟨hhigh, -⟩ := char_int_parts a
  have ha := a.toNat_lt
  exact sextet_basis_64 hhigh (by omega)

theorem sextet_char1 (a b : UInt8) :
    Sextet (encode_char1 a b) (a.toNat % 4 * 16 + b.toNat / 16) := by
  obtain ⟨-, hlow, -⟩ := char_int_parts a
  obtain ⟨-, -, hhigh, -⟩ := char_int_parts b
  have hb := b.toNat_lt
  exact sextet_basis_64 (toNat_or_16 hlow hhigh (by omega)) (by omega)

theorem sextet_char1_last (a : UInt8) : Sextet (encode_char1_last a) (a.toNat % 4 * 16) := by
  obtain ⟨-, hlow, -⟩ := char_int_parts a
  exact sextet_basis_64 hlow (by omega)

theorem sextet_char2 (b c : UInt8) :
    Sextet (encode_char2 b c) (b.toNat % 16 * 4 + c.toNat / 64) := by
  obtain ⟨-, -, -, hlow, -⟩ := char_int_parts b
  obtain ⟨-, -, -, -, hhigh, -⟩ := char_int_parts c
  have hc := c.toNat_lt
  exact sextet_basis_64 (toNat_or_4 hlow hhigh (by omega)) (by omega)

theorem sextet_char2_last (b : UInt8) : Sextet (encode_char2_last b) (b.toNat % 16 * 4) := by
  obtain ⟨-, -, -, hlow, -⟩ := char_int_parts b
  exact sextet_basis_64 hlow (by omega)

theorem sextet_char3 (c : UInt8) : Sextet (encode_char3 c) (c.toNat % 64) := by
  obtain ⟨-, -, -, -, -, hlow⟩ := char_int_parts c
  exact sextet_basis_64 hlow (by omega)

/-! ## One group of the decoder -/

/-- The three bytes that two neighbouring sextets go into. -/
theorem sextet_pairs : ∀ m, m < 64 → ∀ n, n < 64 →
    (UInt8.ofNat m <<< 2 ||| UInt8.ofNat n >>> 4).toNat = m * 4 + n / 16 ∧
      (UInt8.ofNat m <<< 4 ||| UInt8.ofNat n >>> 2).toNat = m % 16 * 16 + n / 4 ∧
      (UInt8.ofNat m <<< 6 ||| UInt8.ofNat n).toNat = m % 4 * 64 + n := by
  decide +kernel

theorem decode_byte0_toNat {x y : UInt8} {m n : Nat} (hx : Sextet x m) (hy : Sextet y n) :
    (decode_byte0 x y).toNat = m * 4 + n / 16 := by
  rw [decode_byte0, hx.2.2, hy.2.2]
  exact (sextet_pairs m hx.1 n hy.1).1

theorem decode_byte1_toNat {x y : UInt8} {m n : Nat} (hx : Sextet x m) (hy : Sextet y n) :
    (decode_byte1 x y).toNat = m % 16 * 16 + n / 4 := by
  rw [decode_byte1, hx.2.2, hy.2.2]
  exact (sextet_pairs m hx.1 n hy.1).2.1

theorem decode_byte2_toNat {x y : UInt8} {m n : Nat} (hx : Sextet x m) (hy : Sextet y n) :
    (decode_byte2 x y).toNat = m % 4 * 64 + n := by
  rw [decode_byte2, hx.2.2, hy.2.2]
  exact (sextet_pairs m hx.1 n hy.1).2.2

theorem decode_byte0_encode {x y : UInt8} {a : UInt8} {n : Nat} (hx : Sextet x (a.toNat / 4))
    (hy : Sextet y n) (hn : n / 16 = a.toNat % 4) : decode_byte0 x y = a := by
  apply UInt8.toNat.inj
  rw [decode_byte0_toNat hx hy]
  omega

theorem decode_byte1_encode {x y : UInt8} {b : UInt8} {m n : Nat} (hx : Sextet x m)
    (hy : Sextet y n) (hm : m % 16 = b.toNat / 16) (hn : n / 4 = b.toNat % 16) :
    decode_byte1 x y = b := by
  apply UInt8.toNat.inj
  rw [decode_byte1_toNat hx hy]
  omega

theorem decode_byte2_encode {x y : UInt8} {c : UInt8} {m : Nat} (hx : Sextet x m)
    (hy : Sextet y (c.toNat % 64)) (hm : m % 4 = c.toNat / 64) : decode_byte2 x y = c := by
  apply UInt8.toNat.inj
  rw [decode_byte2_toNat hx hy]
  omega

/-! ## The round trip -/

/-- Text that the decoder's scan does not enter. -/
def Stops (rest : Str) : Prop := ∀ c, rest.head? = some c → in_alphabet c = false

theorem takeWhile_stops {rest : Str} (h : Stops rest) : rest.takeWhile in_alphabet = [] := by
  cases rest with
  | nil => rfl
  | cons c rest => simp [h c rfl]

/-- The alphabet characters of an encoding, without its padding. -/
def sextets : List UInt8 → Str
  | a :: b :: c :: rest =>
    encode_char0 a :: encode_char1 a b :: encode_char2 b c :: encode_char3 c :: sextets rest
  | [a, b] => [encode_char0 a, encode_char1 a b, encode_char2_last b]
  | [a] => [encode_char0 a, encode_char1_last a]
  | [] => []

/-- The scan of both decoding functions ends where the encoding's padding or the
text after it begins. -/
theorem coded_encode (bytes : List UInt8) {rest : Str} (hrest : Stops rest) :
    coded (Base64encode bytes ++ rest) = sextets bytes := by
  have hpad := not_in_alphabet.1
  induction bytes using Base64encode.induct with
  | case1 a b c tail ih =>
    simp only [coded] at ih
    simp [coded, Base64encode, sextets, (sextet_char0 a).2.1, (sextet_char1 a b).2.1,
      (sextet_char2 b c).2.1, (sextet_char3 c).2.1, ih]
  | case2 a b =>
    simp [coded, Base64encode, sextets, (sextet_char0 a).2.1, (sextet_char1 a b).2.1,
      (sextet_char2_last b).2.1, hpad]
  | case3 a =>
    simp [coded, Base64encode, sextets, (sextet_char0 a).2.1, (sextet_char1_last a).2.1, hpad]
  | case4 => exact takeWhile_stops hrest

/-- The decoding loop inverts the encoder on the characters of an encoding. -/
theorem decode_groups_sextets (bytes : List UInt8) : decode_groups (sextets bytes) = bytes := by
  induction bytes using sextets.induct with
  | case1 a b c tail ih =>
    have h0 : decode_byte0 (encode_char0 a) (encode_char1 a b) = a :=
      decode_byte0_encode (sextet_char0 a) (sextet_char1 a b)
        (by have := b.toNat_lt; omega)
    have h1 : decode_byte1 (encode_char1 a b) (encode_char2 b c) = b :=
      decode_byte1_encode (sextet_char1 a b) (sextet_char2 b c)
        (by have := b.toNat_lt; omega) (by have := c.toNat_lt; omega)
    have h2 : decode_byte2 (encode_char2 b c) (encode_char3 c) = c :=
      decode_byte2_encode (sextet_char2 b c) (sextet_char3 c) (by have := c.toNat_lt; omega)
    -- the loop keeps its last four characters for the code after it
    cases htail : sextets tail with
    | nil =>
      rw [htail] at ih
      have hnil : tail = [] := ih.symm
      simp [sextets, decode_groups, h0, h1, h2, hnil]
    | cons e rest =>
      rw [htail] at ih
      simp [sextets, htail, decode_groups, h0, h1, h2, ih]
  | case2 a b =>
    have h0 : decode_byte0 (encode_char0 a) (encode_char1 a b) = a :=
      decode_byte0_encode (sextet_char0 a) (sextet_char1 a b)
        (by have := b.toNat_lt; omega)
    have h1 : decode_byte1 (encode_char1 a b) (encode_char2_last b) = b :=
      decode_byte1_encode (sextet_char1 a b) (sextet_char2_last b)
        (by have := b.toNat_lt; omega) (by omega)
    simp [sextets, decode_groups, h0, h1]
  | case3 a =>
    have h0 : decode_byte0 (encode_char0 a) (encode_char1_last a) = a :=
      decode_byte0_encode (sextet_char0 a) (sextet_char1_last a) (by omega)
    simp [sextets, decode_groups, h0]
  | case4 => rfl

/-- **Decoding inverts encoding**, for every byte string and in front of any
text that starts outside the alphabet. -/
theorem Base64decode_encode (bytes : List UInt8) {rest : Str} (hrest : Stops rest) :
    Base64decode (Base64encode bytes ++ rest) = bytes := by
  rw [Base64decode, coded_encode bytes hrest, decode_groups_sextets]

/-! ## Sizes and characters -/

/-- `Base64decode` returns the number of bytes it wrote. -/
theorem Base64decode_ret_eq (bufcoded : Str) :
    Base64decode_ret bufcoded = (Base64decode bufcoded).length := by
  rw [Base64decode, Base64decode_ret]
  induction coded bufcoded using decode_groups.induct with
  | case1 a b c d e rest ih =>
    simp only [decode_groups, List.length_cons, nprbytes_left] at ih ⊢
    omega
  | case2 a b c d => simp [decode_groups, nprbytes_left]
  | case3 a b c => simp [decode_groups, nprbytes_left]
  | case4 a b => simp [decode_groups, nprbytes_left]
  | case5 l h4 h5 h3 h2 =>
    rcases l with _ | ⟨a, _ | ⟨b, _ | ⟨c, _ | ⟨d, _ | ⟨e, l⟩⟩⟩⟩⟩
    · simp [decode_groups, nprbytes_left]
    · simp [decode_groups, nprbytes_left]
    · exact absurd rfl (h2 a b)
    · exact absurd rfl (h3 a b c)
    · exact absurd rfl (h5 a b c d)
    · exact absurd rfl (h4 a b c d e l)

/-- Four characters carry three bytes; a single one at the end carries none. -/
theorem decode_groups_length (l : List UInt8) :
    (decode_groups l).length = l.length * 3 / 4 := by
  induction l using decode_groups.induct with
  | case1 a b c d e rest ih =>
    simp only [decode_groups, List.length_cons] at ih ⊢
    omega
  | case2 a b c d => simp [decode_groups]
  | case3 a b c => simp [decode_groups]
  | case4 a b => simp [decode_groups]
  | case5 l h4 h5 h3 h2 =>
    rcases l with _ | ⟨a, _ | ⟨b, _ | ⟨c, _ | ⟨d, _ | ⟨e, l⟩⟩⟩⟩⟩
    · simp [decode_groups]
    · simp [decode_groups]
    · exact absurd rfl (h2 a b)
    · exact absurd rfl (h3 a b c)
    · exact absurd rfl (h5 a b c d)
    · exact absurd rfl (h4 a b c d e l)

theorem Base64decode_length (bufcoded : Str) :
    (Base64decode bufcoded).length = (coded bufcoded).length * 3 / 4 :=
  decode_groups_length _

/-- The string an encoding fills, as `Base64encode_len` announces it. -/
theorem Base64encode_length (bytes : List UInt8) :
    (Base64encode bytes).length = (bytes.length + 2) / 3 * 4 := by
  induction bytes using Base64encode.induct with
  | case1 a b c tail ih =>
    simp only [Base64encode, List.length_cons, ih]
    omega
  | case2 a b => simp [Base64encode]
  | case3 a => simp [Base64encode]
  | case4 => simp [Base64encode]

theorem Base64encode_ne_nil {bytes : List UInt8} (h : bytes ≠ []) : Base64encode bytes ≠ [] := by
  have hpos : 0 < bytes.length := List.length_pos_iff.mpr h
  apply List.ne_nil_of_length_pos
  rw [Base64encode_length]
  omega

/-- Every character of an encoding is in the alphabet or is the padding. -/
theorem Base64encode_chars (bytes : List UInt8) :
    ∀ c ∈ Base64encode bytes, in_alphabet c = true ∨ c = pad_char := by
  induction bytes using Base64encode.induct with
  | case1 a b c tail ih =>
    simp only [Base64encode, List.mem_cons]
    rintro d (rfl | rfl | rfl | rfl | hd)
    · exact Or.inl (sextet_char0 a).2.1
    · exact Or.inl (sextet_char1 a b).2.1
    · exact Or.inl (sextet_char2 b c).2.1
    · exact Or.inl (sextet_char3 c).2.1
    · exact ih d hd
  | case2 a b =>
    simp [Base64encode, (sextet_char0 a).2.1, (sextet_char1 a b).2.1, (sextet_char2_last b).2.1]
  | case3 a => simp [Base64encode, (sextet_char0 a).2.1, (sextet_char1_last a).2.1]
  | case4 => simp [Base64encode]

/-- An encoding holds neither a terminator nor the separator of the wire format. -/
theorem Base64encode_plain {bytes : List UInt8} {c : UInt8} (hc : c ∈ Base64encode bytes) :
    c ≠ 0 ∧ c ≠ 32 := by
  rcases Base64encode_chars bytes c hc with h | rfl
  · obtain ⟨-, hnul, hspace⟩ := not_in_alphabet
    constructor
    · rintro rfl
      exact absurd h (by simp [hnul])
    · rintro rfl
      exact absurd h (by simp [hspace])
  · decide

end AnonyChat
