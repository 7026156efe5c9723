import Mathlib.Data.List.Basic
import Mathlib.Data.Nat.Bitwise
import Mathlib.Tactic.Ring

/-! # Regrouping a stream of bits

A list of digits of a fixed width is a stream of bits, the highest bit of each digit first.  The
same stream cut into groups of another width is a list of other digits; bits that do not fill a
group are left over: `encode` fills the last group with zeros, and `decode` drops what is left
over.  Digits with the same bits are taken off the front of either (`encode_append`,
`decode_append`), which is how a coder that works group by group is compared with them.
-/
namespace Regroup

/-- A digit as this many bits, the highest first. -/
def bits : Nat → Nat → List Bool
  | 0, _ => []
  | w + 1, n => bits w (n / 2) ++ [n.testBit 0]

/-- The digit with these bits. -/
def value (bs : List Bool) : Nat := bs.foldl (fun n b => 2 * n + b.toNat) 0

/-- The bits of these digits, one after the other. -/
def stream (w : Nat) (digits : List Nat) : List Bool := digits.flatMap (bits w)

/-- The full groups of the stream. -/
def chop (w : Nat) (bs : List Bool) : List Nat :=
  (List.range (bs.length / w)).map fun i => value ((bs.drop (w * i)).take w)

/-- The zeros that fill the last group. -/
def padding (w : Nat) (bs : List Bool) : List Bool := List.replicate ((w - bs.length % w) % w) false

/-- Digits of the width `v` as digits of the width `w`. -/
def encode (v w : Nat) (digits : List Nat) : List Nat :=
  chop w (stream v digits ++ padding w (stream v digits))

/-- Digits of the width `w` as digits of the width `v`. -/
def decode (v w : Nat) (digits : List Nat) : List Nat := chop v (stream w digits)

/-! ## One digit -/

@[simp] theorem length_bits (w n : Nat) : (bits w n).length = w := by
  induction w generalizing n with
  | zero => rfl
  | succ w ih => rw [bits, List.length_append, ih, List.length_singleton]

theorem value_append_singleton (bs : List Bool) (b : Bool) :
    value (bs ++ [b]) = 2 * value bs + b.toNat := by
  rw [value, List.foldl_append]
  rfl

theorem value_bits {w n : Nat} (h : n < 2 ^ w) : value (bits w n) = n := by
  induction w generalizing n with
  | zero =>
    have hn : n = 0 := by simpa using h
    rw [hn]
    rfl
  | succ w ih =>
    have hhalf : n / 2 < 2 ^ w := by
      rw [Nat.pow_succ] at h
      omega
    rw [bits, value_append_singleton, ih hhalf, Nat.testBit_zero]
    rcases Nat.mod_two_eq_zero_or_one n with hmod | hmod
    · rw [hmod]
      simp only [zero_ne_one, decide_false, Bool.toNat_false]
      omega
    · rw [hmod]
      simp only [decide_true, Bool.toNat_true]
      omega

/-- A digit in two parts. -/
theorem bits_add (u v n : Nat) : bits (u + v) n = bits u (n / 2 ^ v) ++ bits v (n % 2 ^ v) := by
  induction v generalizing n with
  | zero => simp [bits]
  | succ v ih =>
    have hdiv : n / 2 / 2 ^ v = n / 2 ^ (v + 1) := by
      rw [Nat.div_div_eq_div_mul, Nat.pow_succ, Nat.mul_comm]
    have hmod : n % 2 ^ (v + 1) / 2 = n / 2 % 2 ^ v := by
      rw [Nat.pow_succ, Nat.mul_comm, Nat.mod_mul_right_div_self]
    have hbit : (n % 2 ^ (v + 1)).testBit 0 = n.testBit 0 := by
      rw [Nat.testBit_mod_two_pow]
      simp
    rw [← Nat.add_assoc, bits, ih, bits, hdiv, hmod, hbit, List.append_assoc]

/-- Two parts make a digit. -/
theorem bits_append (u v : Nat) {m n : Nat} (hn : n < 2 ^ v) :
    bits u m ++ bits v n = bits (u + v) (m * 2 ^ v + n) := by
  have hpos : 0 < 2 ^ v := Nat.two_pow_pos v
  have hdiv : (m * 2 ^ v + n) / 2 ^ v = m := by
    rw [Nat.mul_comm, Nat.mul_add_div hpos, Nat.div_eq_of_lt hn, Nat.add_zero]
  have hmod : (m * 2 ^ v + n) % 2 ^ v = n := by
    rw [Nat.mul_comm, Nat.mul_add_mod, Nat.mod_eq_of_lt hn]
  rw [bits_add, hdiv, hmod]

theorem bits_zero (w : Nat) : bits w 0 = List.replicate w false := by
  induction w with
  | zero => rfl
  | succ w ih => rw [bits, Nat.zero_div, ih, Nat.zero_testBit, List.replicate_succ']

/-! ## The stream -/

@[simp] theorem stream_nil (w : Nat) : stream w [] = [] := rfl

@[simp] theorem stream_cons (w n : Nat) (digits : List Nat) :
    stream w (n :: digits) = bits w n ++ stream w digits := rfl

theorem stream_append (w : Nat) (xs ys : List Nat) :
    stream w (xs ++ ys) = stream w xs ++ stream w ys := List.flatMap_append

theorem length_stream (w : Nat) (digits : List Nat) :
    (stream w digits).length = w * digits.length := by
  induction digits with
  | nil => rfl
  | cons n digits ih =>
    rw [stream_cons, List.length_append, length_bits, ih, List.length_cons]
    ring

/-- Too little for a group. -/
theorem chop_of_length_lt {w : Nat} {bs : List Bool} (h : bs.length < w) : chop w bs = [] := by
  rw [chop, Nat.div_eq_of_lt h]
  rfl

/-- **The first group.** -/
theorem chop_append {w : Nat} (hw : 0 < w) {xs : List Bool} (hxs : xs.length = w) (ys : List Bool) :
    chop w (xs ++ ys) = value xs :: chop w ys := by
  have hlen : (xs ++ ys).length / w = ys.length / w + 1 := by
    rw [List.length_append, hxs, Nat.add_comm, Nat.add_div_right _ hw]
  rw [chop, hlen, List.range_succ_eq_map, List.map_cons, List.map_map, Nat.mul_zero,
    List.drop_zero]
  congr 1
  · rw [← hxs, List.take_left]
  · refine List.map_congr_left fun i _ => ?_
    have hdrop : (xs ++ ys).drop (w * (i + 1)) = ys.drop (w * i) := by
      rw [Nat.mul_succ, Nat.add_comm, ← List.drop_drop, ← hxs, List.drop_left]
    show value (((xs ++ ys).drop (w * (i + 1))).take w) = _
    rw [hdrop]

/-- The digits a stream starts with are its first groups. -/
theorem chop_stream_append {w : Nat} (hw : 0 < w) {digits : List Nat}
    (h : ∀ n ∈ digits, n < 2 ^ w) (bs : List Bool) :
    chop w (stream w digits ++ bs) = digits ++ chop w bs := by
  induction digits with
  | nil => rfl
  | cons n digits ih =>
    rw [stream_cons, List.append_assoc, chop_append hw (length_bits w n),
      value_bits (h n List.mem_cons_self), ih fun m hm => h m (List.mem_cons_of_mem _ hm),
      List.cons_append]

/-- What is behind the digits is too little for one more. -/
theorem chop_stream {w : Nat} (hw : 0 < w) {digits : List Nat} (h : ∀ n ∈ digits, n < 2 ^ w)
    {rest : List Bool} (hrest : rest.length < w) : chop w (stream w digits ++ rest) = digits := by
  rw [chop_stream_append hw h, chop_of_length_lt hrest, List.append_nil]

theorem padding_append {w : Nat} {xs : List Bool} (h : w ∣ xs.length) (ys : List Bool) :
    padding w (xs ++ ys) = padding w ys := by
  obtain ⟨k, hk⟩ := h
  rw [padding, padding, List.length_append, hk, Nat.mul_add_mod]

/-! ## Group by group -/

/-- Digits of the two widths with the same bits are encoded one way, -/
theorem encode_append {v w : Nat} (hw : 0 < w) {xs ys : List Nat} (hys : ∀ n ∈ ys, n < 2 ^ w)
    (h : stream v xs = stream w ys) (zs : List Nat) :
    encode v w (xs ++ zs) = ys ++ encode v w zs := by
  have hdvd : w ∣ (stream w ys).length := ⟨ys.length, length_stream w ys⟩
  rw [encode, stream_append, h, padding_append hdvd, List.append_assoc,
    chop_stream_append hw hys, encode]

/-- and decoded the other. -/
theorem decode_append {v w : Nat} (hv : 0 < v) {xs ys : List Nat} (hys : ∀ n ∈ ys, n < 2 ^ v)
    (h : stream w xs = stream v ys) (zs : List Nat) :
    decode v w (xs ++ zs) = ys ++ decode v w zs := by
  rw [decode, stream_append, h, chop_stream_append hv hys, decode]

/-- The last group is filled up, -/
theorem encode_last {v w : Nat} (hw : 0 < w) {xs ys : List Nat} (hys : ∀ n ∈ ys, n < 2 ^ w)
    (h : stream w ys = stream v xs ++ padding w (stream v xs)) : encode v w xs = ys := by
  rw [encode, ← h, ← List.append_nil (stream w ys)]
  exact chop_stream hw hys hw

/-- and what is left of a digit is dropped. -/
theorem decode_last {v w : Nat} (hv : 0 < v) {xs ys : List Nat} (hys : ∀ n ∈ ys, n < 2 ^ v)
    {rest : List Bool} (hrest : rest.length < v) (h : stream w xs = stream v ys ++ rest) :
    decode v w xs = ys := by
  rw [decode, h]
  exact chop_stream hv hys hrest

end Regroup
