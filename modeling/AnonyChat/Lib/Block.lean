import AnonyChat.Lib.CString

/-! # Blocks of memory

A block is an allocation: a number of bytes, and what they hold.  A call that would
write behind the block, or look for a terminator that is not there, has no result but
`Stray`.  The string functions are those of `CString`, this time on the bytes:
`strncpy` fills the rest of its count with zeros and does not terminate a string that
takes up all of it; `strncat` always writes a terminator, behind the count.
-/

/-- An access outside of a block. -/
inductive Stray where
  | read
  | write
  deriving DecidableEq, Repr

/-- An allocation of `size` bytes. -/
structure Block (size : Nat) where
  bytes : List UInt8
  length_eq : bytes.length = size
  deriving DecidableEq, Repr

namespace Block
open CString

variable {size : Nat}

/-- The block whose bytes are all the same; `memset`. -/
def fill (size : Nat) (c : UInt8) : Block size := ⟨List.replicate size c, List.length_replicate⟩

/-- Consecutive bytes are stored from a position on. -/
def write (b : Block size) (pos : Nat) (bytes : List UInt8) : Except Stray (Block size) :=
  if h : pos + bytes.length ≤ size then
    .ok ⟨b.bytes.take pos ++ (bytes ++ b.bytes.drop (pos + bytes.length)), by
      simp only [List.length_append, List.length_take, List.length_drop, b.length_eq]
      omega⟩
  else .error .write

/-- `strlen` of a pointer to the block. -/
def strlen (b : Block size) : Except Stray Nat :=
  if 0 ∈ b.bytes then .ok (cstr b.bytes).length else .error .read

/-- `strncpy(b, src, n)`. -/
def strncpy (b : Block size) (src : Str) (n : Nat) : Except Stray (Block size) :=
  b.write 0 (src.take n ++ List.replicate (n - src.length) 0)

/-- `strncat(b, src, n)`. -/
def strncat (b : Block size) (src : Str) (n : Nat) : Except Stray (Block size) := do
  b.write (← b.strlen) (src.take n ++ [0])

/-- The block holds this string, with its terminator. -/
structure Holds (b : Block size) (s : Str) : Prop where
  nulFree : NulFree s
  bytes_eq : ∃ rest, b.bytes = s ++ 0 :: rest

variable {b : Block size} {s src : Str} {n : Nat}

theorem Holds.cstr_eq (h : b.Holds s) : cstr b.bytes = s := by
  obtain ⟨rest, hrest⟩ := h.bytes_eq
  rw [hrest, cstr_append_nul h.nulFree]

theorem Holds.strlen_eq (h : b.Holds s) : b.strlen = .ok s.length := by
  have hmem : 0 ∈ b.bytes := by
    obtain ⟨rest, hrest⟩ := h.bytes_eq
    simp [hrest]
  rw [strlen, if_pos hmem, h.cstr_eq]

theorem Holds.length_lt (h : b.Holds s) : s.length < size := by
  obtain ⟨rest, hrest⟩ := h.bytes_eq
  rw [← b.length_eq, hrest, List.length_append, List.length_cons]
  omega

/-- A block with a terminator holds the string in front of it. -/
theorem holds_cstr (h : 0 ∈ b.bytes) : b.Holds (cstr b.bytes) := by
  obtain ⟨before, rest, hbytes, hbefore⟩ := List.eq_append_cons_of_mem h
  have hfree : NulFree before := fun c hc hzero => hbefore (hzero ▸ hc)
  refine ⟨cstr_nulFree _, rest, ?_⟩
  rw [hbytes, cstr_append_nul hfree]

/-- A write inside the block. -/
theorem write_ok {pos : Nat} {bytes : List UInt8} (h : pos + bytes.length ≤ size) :
    ∃ b', b.write pos bytes = .ok b' ∧
      b'.bytes = b.bytes.take pos ++ (bytes ++ b.bytes.drop (pos + bytes.length)) := by
  rw [write, dif_pos h]
  exact ⟨_, rfl, rfl⟩

theorem write_stray {pos : Nat} {bytes : List UInt8} (h : size < pos + bytes.length) :
    b.write pos bytes = .error .write := by
  rw [write, dif_neg (Nat.not_le_of_lt h)]

/-- A string and its terminator are written behind what the block holds. -/
theorem Holds.write_append (h : b.Holds s) {t : Str} (ht : NulFree t)
    (hfits : s.length + t.length < size) :
    ∃ b', b.write s.length (t ++ [0]) = .ok b' ∧ b'.Holds (s ++ t) := by
  have hle : s.length + (t ++ [0]).length ≤ size := by
    rw [List.length_append, List.length_singleton]
    omega
  obtain ⟨b', hb', hbytes⟩ := write_ok (b := b) hle
  obtain ⟨rest, hrest⟩ := h.bytes_eq
  have hstart : b.bytes.take s.length = s := by rw [hrest, List.take_left]
  refine ⟨b', hb', h.nulFree.append ht, b.bytes.drop (s.length + (t ++ [0]).length), ?_⟩
  rw [hbytes, hstart]
  simp only [List.append_assoc, List.singleton_append]

/-- **Appending** stays inside exactly when the longer string and its terminator do. -/
theorem Holds.strncat_ok (h : b.Holds s) (hsrc : NulFree src)
    (hfits : (CString.strncat s src n).length < size) :
    ∃ b', b.strncat src n = .ok b' ∧ b'.Holds (CString.strncat s src n) := by
  have htake : NulFree (src.take n) := fun c hc => hsrc c (List.mem_of_mem_take hc)
  rw [CString.strncat, List.length_append] at hfits
  obtain ⟨b', hb', hholds⟩ := h.write_append htake hfits
  exact ⟨b', by rw [strncat, h.strlen_eq]; exact hb', hholds⟩

theorem Holds.strncat_stray (h : b.Holds s) (hlong : size ≤ (CString.strncat s src n).length) :
    b.strncat src n = .error .write := by
  rw [CString.strncat, List.length_append] at hlong
  rw [strncat, h.strlen_eq]
  apply write_stray
  rw [List.length_append, List.length_singleton]
  omega

/-! ## Several calls in a row -/

/-- `strncat` of one string after the other, each with its count. -/
def strncats (b : Block size) (srcs : List (Str × Nat)) : Except Stray (Block size) :=
  srcs.foldlM (fun b src => b.strncat src.1 src.2) b

/-- What these calls append. -/
def appended (srcs : List (Str × Nat)) : Str := (srcs.map fun src => src.1.take src.2).flatten

theorem strncats_cons (b : Block size) (src : Str × Nat) (srcs : List (Str × Nat)) :
    b.strncats (src :: srcs) = b.strncat src.1 src.2 >>= fun b => b.strncats srcs := by
  rw [strncats, List.foldlM_cons]
  rfl

@[simp] theorem strncats_singleton (b : Block size) (src : Str × Nat) :
    b.strncats [src] = b.strncat src.1 src.2 := by
  simp [strncats]

theorem strncats_append (b : Block size) (srcs srcs' : List (Str × Nat)) :
    b.strncats (srcs ++ srcs') = b.strncats srcs >>= fun b => b.strncats srcs' := by
  rw [strncats, List.foldlM_append]
  rfl

/-- **All of them** stay inside when everything together does. -/
theorem Holds.strncats_ok {srcs : List (Str × Nat)} (h : b.Holds s)
    (hsrcs : ∀ src ∈ srcs, NulFree src.1) (hfits : (s ++ appended srcs).length < size) :
    ∃ b', b.strncats srcs = .ok b' ∧ b'.Holds (s ++ appended srcs) := by
  induction srcs generalizing b s with
  | nil => exact ⟨b, rfl, by simpa [appended] using h⟩
  | cons src srcs ih =>
    have htext : s ++ appended (src :: srcs) =
        CString.strncat s src.1 src.2 ++ appended srcs := by
      simp [appended, CString.strncat]
    rw [htext] at hfits ⊢
    have hfirst : (CString.strncat s src.1 src.2).length < size := by
      rw [List.length_append] at hfits
      omega
    obtain ⟨b₁, hb₁, hholds⟩ := h.strncat_ok (hsrcs src List.mem_cons_self) hfirst
    obtain ⟨b₂, hb₂, hholds'⟩ :=
      ih hholds (fun src hsrc => hsrcs src (List.mem_cons_of_mem _ hsrc)) hfits
    exact ⟨b₂, by rw [strncats_cons, hb₁]; exact hb₂, hholds'⟩

/-- Otherwise one of them writes behind the block. -/
theorem Holds.strncats_stray {srcs : List (Str × Nat)} (h : b.Holds s)
    (hsrcs : ∀ src ∈ srcs, NulFree src.1) (hlong : size ≤ (s ++ appended srcs).length) :
    b.strncats srcs = .error .write := by
  induction srcs generalizing b s with
  | nil =>
    have := h.length_lt
    simp only [appended, List.map_nil, List.flatten_nil, List.append_nil] at hlong
    omega
  | cons src srcs ih =>
    rw [strncats_cons]
    by_cases hfirst : (CString.strncat s src.1 src.2).length < size
    · obtain ⟨b₁, hb₁, hholds⟩ := h.strncat_ok (hsrcs src List.mem_cons_self) hfirst
      rw [hb₁]
      apply ih hholds fun src hsrc => hsrcs src (List.mem_cons_of_mem _ hsrc)
      simpa [appended, CString.strncat] using hlong
    · rw [h.strncat_stray (Nat.le_of_not_lt hfirst)]
      rfl

/-! ## Copying -/

/-- A count within the block. -/
theorem strncpy_ok (hn : n ≤ size) (src : Str) :
    ∃ b', b.strncpy src n = .ok b' ∧
      b'.bytes = src.take n ++ (List.replicate (n - src.length) 0 ++ b.bytes.drop n) := by
  have hlen : (src.take n ++ List.replicate (n - src.length) (0 : UInt8)).length = n := by
    rw [List.length_append, List.length_take, List.length_replicate]
    omega
  obtain ⟨b', hb', hbytes⟩ := write_ok (b := b)
    (show 0 + (src.take n ++ List.replicate (n - src.length) 0).length ≤ size by omega)
  refine ⟨b', hb', ?_⟩
  rw [hbytes, hlen, Nat.zero_add, List.take_zero, List.nil_append, List.append_assoc]

/-- A string shorter than the count comes with a terminator. -/
theorem strncpy_holds (hn : n ≤ size) (hsrc : NulFree src) (hlen : src.length < n) :
    ∃ b', b.strncpy src n = .ok b' ∧ b'.Holds src := by
  obtain ⟨b', hb', hbytes⟩ := strncpy_ok (b := b) hn src
  obtain ⟨m, hm⟩ := Nat.exists_eq_add_of_lt (Nat.sub_pos_of_lt hlen)
  rw [hm, Nat.zero_add, List.replicate_succ, List.take_of_length_le (Nat.le_of_lt hlen)] at hbytes
  exact ⟨b', hb', hsrc, _, hbytes⟩

/-- The bytes of a block filled by `strncpy` say what is left of the string. -/
theorem strncpy_full (src : Str) :
    ∃ b', b.strncpy src size = .ok b' ∧
      b'.bytes = src.take size ++ List.replicate (size - src.length) 0 := by
  obtain ⟨b', hb', hbytes⟩ := strncpy_ok (b := b) (Nat.le_refl size) src
  refine ⟨b', hb', ?_⟩
  rw [hbytes, List.drop_of_length_le (Nat.le_of_eq b.length_eq), List.append_nil]

/-- The block holds a terminated string: the beginning of the one it was given, and all of
it when there is room. -/
structure Terminated (b : Block size) (src : Str) : Prop where
  terminator : 0 ∈ b.bytes
  upto : cstr b.bytes <+: src
  whole : src.length < size → cstr b.bytes = src

/-- **A block filled by `strncpy`** is terminated only when the string is shorter. -/
theorem strncpy_terminated_iff (b : Block size) (hsrc : NulFree src) :
    ∃ b', b.strncpy src size = .ok b' ∧ (b'.Terminated src ↔ src.length < size) := by
  by_cases hlen : src.length < size
  · obtain ⟨b', hb', hholds⟩ := strncpy_holds (b := b) (Nat.le_refl size) hsrc hlen
    have hcstr := hholds.cstr_eq
    obtain ⟨rest, hrest⟩ := hholds.bytes_eq
    exact ⟨b', hb', iff_of_true ⟨by simp [hrest], ⟨[], by rw [hcstr, List.append_nil]⟩,
      fun _ => hcstr⟩ hlen⟩
  · obtain ⟨b', hb', hbytes⟩ := strncpy_full (b := b) src
    rw [Nat.sub_eq_zero_of_le (Nat.le_of_not_lt hlen), List.replicate_zero,
      List.append_nil] at hbytes
    refine ⟨b', hb', iff_of_false (fun h => ?_) hlen⟩
    have hmem := h.terminator
    rw [hbytes] at hmem
    exact hsrc 0 (List.mem_of_mem_take hmem) rfl

end Block
