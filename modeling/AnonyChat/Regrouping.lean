import AnonyChat.Base64
import AnonyChat.Lib.Regroup

/-! # What the Base64 coder computes (`base64.c`)

`Base64encode` and `Base64decode` move bits with shifts and masks, group by group, with a code of
its own for a last group that is not full.  Here they are compared with one description: the bits
of the bytes, the highest first, cut into groups of six.  The encoder writes the alphabet
characters of the groups, the last one filled with zeros, and one `=` for each byte missing from
the last three.  The decoder takes any text: it reads the alphabet characters the text starts with
and writes the full bytes in their bits.
-/
namespace AnonyChat
open CString
open Regroup (bits stream padding encode decode)

/-- The digit a character stands for. -/
def digit (c : UInt8) : Nat := (pr2six c).toNat

/-- The character of a digit. -/
def character (n : Nat) : UInt8 := basis_64 (BitVec.ofNat 32 n)

theorem digit_lt {c : UInt8} (h : in_alphabet c = true) : digit c < 64 := by
  have hle : pr2six c ≤ 63 := of_decide_eq_true h
  rw [UInt8.le_iff_toNat_le] at hle
  exact Nat.lt_succ_of_le hle

theorem sextet_digit {c : UInt8} (h : in_alphabet c = true) : Sextet c (digit c) :=
  ⟨digit_lt h, h, by rw [digit, UInt8.ofNat_toNat]⟩

/-- The character depends on the value of the index alone. -/
theorem basis_64_eq {i : BitVec 32} {n : Nat} (h : i.toNat = n) : basis_64 i = character n := by
  rw [character, ← h, BitVec.ofNat_toNat, BitVec.setWidth_eq]

/-! ## The bits of a group -/

/-- Three bytes have the bits of four digits, -/
theorem stream_group {a b c : Nat} (hb : b < 256) (hc : c < 256) :
    stream 8 [a, b, c] = stream 6 [a / 4, a % 4 * 16 + b / 16, b % 16 * 4 + c / 64, c % 64] := by
  have hfirst : bits 8 a = bits 6 (a / 4) ++ bits 2 (a % 4) := Regroup.bits_add 6 2 a
  have hsecond : bits 8 b = bits 4 (b / 16) ++ bits 4 (b % 16) := Regroup.bits_add 4 4 b
  have hthird : bits 8 c = bits 2 (c / 64) ++ bits 6 (c % 64) := Regroup.bits_add 2 6 c
  have hleft : bits 2 (a % 4) ++ bits 4 (b / 16) = bits 6 (a % 4 * 16 + b / 16) :=
    Regroup.bits_append 2 4 (by omega)
  have hright : bits 4 (b % 16) ++ bits 2 (c / 64) = bits 6 (b % 16 * 4 + c / 64) :=
    Regroup.bits_append 4 2 (by omega)
  simp only [Regroup.stream_cons, Regroup.stream_nil, hfirst, hsecond, hthird, ← hleft, ← hright,
    List.append_assoc]

/-- two bytes those of three digits but for the last two, -/
theorem stream_pair {a b r : Nat} (hb : b < 256) (hr : r < 4) :
    stream 6 [a / 4, a % 4 * 16 + b / 16, b % 16 * 4 + r] = stream 8 [a, b] ++ bits 2 r := by
  have hfirst : bits 8 a = bits 6 (a / 4) ++ bits 2 (a % 4) := Regroup.bits_add 6 2 a
  have hsecond : bits 8 b = bits 4 (b / 16) ++ bits 4 (b % 16) := Regroup.bits_add 4 4 b
  have hleft : bits 2 (a % 4) ++ bits 4 (b / 16) = bits 6 (a % 4 * 16 + b / 16) :=
    Regroup.bits_append 2 4 (by omega)
  have hright : bits 4 (b % 16) ++ bits 2 r = bits 6 (b % 16 * 4 + r) :=
    Regroup.bits_append 4 2 hr
  simp only [Regroup.stream_cons, Regroup.stream_nil, hfirst, hsecond, ← hleft, ← hright,
    List.append_assoc, List.append_nil]

/-- and one byte those of two digits but for the last four. -/
theorem stream_single {a r : Nat} (hr : r < 16) :
    stream 6 [a / 4, a % 4 * 16 + r] = stream 8 [a] ++ bits 4 r := by
  have hfirst : bits 8 a = bits 6 (a / 4) ++ bits 2 (a % 4) := Regroup.bits_add 6 2 a
  have hleft : bits 2 (a % 4) ++ bits 4 r = bits 6 (a % 4 * 16 + r) :=
    Regroup.bits_append 2 4 hr
  simp only [Regroup.stream_cons, Regroup.stream_nil, hfirst, ← hleft, List.append_assoc,
    List.append_nil]

/-! ## The encoder -/

theorem encode_char0_eq (a : UInt8) : encode_char0 a = character (a.toNat / 4) :=
  basis_64_eq (char_int_parts a).1

theorem encode_char1_eq (a b : UInt8) :
    encode_char1 a b = character (a.toNat % 4 * 16 + b.toNat / 16) := by
  have hb := b.toNat_lt
  obtain ⟨-, hlow, -⟩ := char_int_parts a
  obtain ⟨-, -, hhigh, -⟩ := char_int_parts b
  exact basis_64_eq (toNat_or_16 hlow hhigh (by omega))

theorem encode_char1_last_eq (a : UInt8) :
    encode_char1_last a = character (a.toNat % 4 * 16) :=
  basis_64_eq (char_int_parts a).2.1

theorem encode_char2_eq (b c : UInt8) :
    encode_char2 b c = character (b.toNat % 16 * 4 + c.toNat / 64) := by
  have hc := c.toNat_lt
  obtain ⟨-, -, -, hlow, -⟩ := char_int_parts b
  obtain ⟨-, -, -, -, hhigh, -⟩ := char_int_parts c
  exact basis_64_eq (toNat_or_4 hlow hhigh (by omega))

theorem encode_char2_last_eq (b : UInt8) :
    encode_char2_last b = character (b.toNat % 16 * 4) :=
  basis_64_eq (char_int_parts b).2.2.2.1

theorem encode_char3_eq (c : UInt8) : encode_char3 c = character (c.toNat % 64) :=
  basis_64_eq (char_int_parts c).2.2.2.2.2

/-- The zeros behind a last group. -/
theorem padding_stream {k : Nat} {digits : List Nat} (h : (6 - 8 * digits.length % 6) % 6 = k) :
    padding 6 (stream 8 digits) = bits k 0 := by
  rw [padding, Regroup.length_stream, h, Regroup.bits_zero]

theorem Base64encode_eq (bytes : List UInt8) :
    Base64encode bytes = (encode 8 6 (bytes.map UInt8.toNat)).map character ++
      List.replicate ((3 - bytes.length % 3) % 3) pad_char := by
  induction bytes using Base64encode.induct with
  | case1 a b c rest ih =>
    have ha := a.toNat_lt
    have hb := b.toNat_lt
    have hc := c.toNat_lt
    have hgroup := Regroup.encode_append (v := 8) (w := 6) (by omega) (by grind)
      (stream_group (a := a.toNat) hb hc) (rest.map UInt8.toNat)
    have hlen : (a :: b :: c :: rest).length % 3 = rest.length % 3 :=
      Nat.add_mod_right rest.length 3
    rw [Base64encode, ih, hlen, encode_char0_eq, encode_char1_eq, encode_char2_eq,
      encode_char3_eq]
    simp only [List.cons_append, List.nil_append] at hgroup
    simp only [List.map_cons, hgroup, List.cons_append]
  | case2 a b =>
    have ha := a.toNat_lt
    have hb := b.toNat_lt
    have hzeros : padding 6 (stream 8 [a.toNat, b.toNat]) = bits 2 0 := padding_stream (by simp)
    have hlast : encode 8 6 [a.toNat, b.toNat] =
        [a.toNat / 4, a.toNat % 4 * 16 + b.toNat / 16, b.toNat % 16 * 4] := by
      refine Regroup.encode_last (by omega) (by grind) ?_
      rw [hzeros]
      exact stream_pair (r := 0) hb (by omega)
    rw [Base64encode, encode_char0_eq, encode_char1_eq, encode_char2_last_eq, List.map_cons,
      List.map_cons, List.map_nil, hlast]
    rfl
  | case3 a =>
    have ha := a.toNat_lt
    have hzeros : padding 6 (stream 8 [a.toNat]) = bits 4 0 := padding_stream (by simp)
    have hlast : encode 8 6 [a.toNat] = [a.toNat / 4, a.toNat % 4 * 16] := by
      refine Regroup.encode_last (by omega) (by grind) ?_
      rw [hzeros]
      exact stream_single (r := 0) (by omega)
    rw [Base64encode, encode_char0_eq, encode_char1_last_eq, List.map_cons, List.map_nil, hlast]
    rfl
  | case4 => rfl

/-! ## The decoder -/

/-- The loop leaves its last four characters to the code behind it, which treats them alike. -/
theorem decode_groups_cons (a b c d : UInt8) (rest : List UInt8) :
    decode_groups (a :: b :: c :: d :: rest) =
      decode_byte0 a b :: decode_byte1 b c :: decode_byte2 c d :: decode_groups rest := by
  cases rest with
  | nil => rfl
  | cons e rest => rw [decode_groups]

/-- Four digits have the bits of three bytes. -/
theorem stream_digits {m n p q : Nat} (hn : n < 64) (hp : p < 64) (hq : q < 64) :
    stream 6 [m, n, p, q] = stream 8 [m * 4 + n / 16, n % 16 * 16 + p / 4, p % 4 * 64 + q] := by
  have hm' : (m * 4 + n / 16) / 4 = m := by omega
  have hn' : (m * 4 + n / 16) % 4 * 16 + (n % 16 * 16 + p / 4) / 16 = n := by omega
  have hp' : (n % 16 * 16 + p / 4) % 16 * 4 + (p % 4 * 64 + q) / 64 = p := by omega
  have hq' : (p % 4 * 64 + q) % 64 = q := by omega
  rw [stream_group (by omega) (by omega), hm', hn', hp', hq']

/-- Three digits have those of two bytes, and two bits more. -/
theorem stream_three_digits {m n p : Nat} (hn : n < 64) (hp : p < 64) :
    stream 6 [m, n, p] = stream 8 [m * 4 + n / 16, n % 16 * 16 + p / 4] ++ bits 2 (p % 4) := by
  have hm' : (m * 4 + n / 16) / 4 = m := by omega
  have hn' : (m * 4 + n / 16) % 4 * 16 + (n % 16 * 16 + p / 4) / 16 = n := by omega
  have hp' : (n % 16 * 16 + p / 4) % 16 * 4 + p % 4 = p := by omega
  rw [← stream_pair (by omega) (by omega), hm', hn', hp']

/-- Two digits have those of one byte, and four bits more. -/
theorem stream_two_digits {m n : Nat} (hn : n < 64) :
    stream 6 [m, n] = stream 8 [m * 4 + n / 16] ++ bits 4 (n % 16) := by
  have hm' : (m * 4 + n / 16) / 4 = m := by omega
  have hn' : (m * 4 + n / 16) % 4 * 16 + n % 16 = n := by omega
  rw [← stream_single (by omega), hm', hn']

/-- A few bits are no byte. -/
theorem length_bits_lt {w : Nat} (hw : w < 8) (n : Nat) : (bits w n).length < 8 := by
  rw [Regroup.length_bits]
  exact hw

theorem decode_groups_eq : ∀ l : List UInt8, (∀ c ∈ l, in_alphabet c = true) →
    (decode_groups l).map UInt8.toNat = decode 8 6 (l.map digit)
  | a :: b :: c :: d :: rest, h => by
    have ha := sextet_digit (h a (by simp))
    have hb := sextet_digit (h b (by simp))
    have hc := sextet_digit (h c (by simp))
    have hd := sextet_digit (h d (by simp))
    have hrest := decode_groups_eq rest fun x hx => h x (by simp [hx])
    have hgroup := Regroup.decode_append (v := 8) (w := 6) (by omega)
      (by have := ha.1; have := hb.1; have := hc.1; have := hd.1; grind)
      (stream_digits (m := digit a) hb.1 hc.1 hd.1) (rest.map digit)
    simp only [List.cons_append, List.nil_append] at hgroup
    rw [decode_groups_cons]
    simp only [List.map_cons, hgroup, hrest, decode_byte0_toNat ha hb, decode_byte1_toNat hb hc,
      decode_byte2_toNat hc hd]
  | [a, b, c], h => by
    have ha := sextet_digit (h a (by simp))
    have hb := sextet_digit (h b (by simp))
    have hc := sextet_digit (h c (by simp))
    have hlast : decode 8 6 [digit a, digit b, digit c] =
        [digit a * 4 + digit b / 16, digit b % 16 * 16 + digit c / 4] := by
      refine Regroup.decode_last (by omega) ?_ (length_bits_lt (by omega) _)
        (stream_three_digits hb.1 hc.1)
      have := ha.1
      have := hb.1
      have := hc.1
      grind
    rw [decode_groups, List.map_cons, List.map_cons, List.map_nil, decode_byte0_toNat ha hb,
      decode_byte1_toNat hb hc]
    exact hlast.symm
  | [a, b], h => by
    have ha := sextet_digit (h a (by simp))
    have hb := sextet_digit (h b (by simp))
    have hlast : decode 8 6 [digit a, digit b] = [digit a * 4 + digit b / 16] := by
      refine Regroup.decode_last (by omega) ?_ (length_bits_lt (by omega) _)
        (stream_two_digits hb.1)
      have := ha.1
      have := hb.1
      grind
    rw [decode_groups, List.map_cons, List.map_nil, decode_byte0_toNat ha hb]
    exact hlast.symm
  | [a], _ => by
    have hshort := length_bits_lt (w := 6) (by omega) (digit a)
    have hlast : decode 8 6 [digit a] = [] :=
      Regroup.decode_last (by omega) (by simp) hshort (by simp)
    exact hlast.symm
  | [], _ => rfl

theorem coded_in_alphabet (bufcoded : Str) : ∀ c ∈ coded bufcoded, in_alphabet c = true :=
  fun _ hc => List.mem_takeWhile_imp hc

theorem Base64decode_eq (bufcoded : Str) :
    (Base64decode bufcoded).map UInt8.toNat = decode 8 6 ((coded bufcoded).map digit) :=
  decode_groups_eq _ (coded_in_alphabet bufcoded)

/-! ## Both coders -/

/-- **The coder cuts a stream of bits.**  For every byte string the encoder writes the characters
of the groups of six bits, the last filled with zeros, and the padding; for every text the decoder
writes the full bytes in the bits of the characters the text starts with. -/
theorem Base64_regroups :
    (∀ bytes : List UInt8,
      Base64encode bytes = (encode 8 6 (bytes.map UInt8.toNat)).map character ++
        List.replicate ((3 - bytes.length % 3) % 3) pad_char) ∧
      ∀ bufcoded : Str,
        (Base64decode bufcoded).map UInt8.toNat = decode 8 6 ((coded bufcoded).map digit) :=
  ⟨Base64encode_eq, Base64decode_eq⟩

end AnonyChat
