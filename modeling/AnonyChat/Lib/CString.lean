import Mathlib.Data.List.Basic
import Mathlib.Data.List.TakeDrop
import Mathlib.Data.List.TakeWhile

/-! # C strings as values

A C string is modelled by the list of its characters before the terminator, and
a buffer by the list of its bytes.  The functions below are the ones of
`string.h`, as functions on these values: what they append, where they cut, and
what `strtok_r` leaves at its cursor.  How many bytes an allocation offers is
not part of this model.
-/
namespace CString

/-- The characters of a C string, without its terminator. -/
abbrev Str := List UInt8

/-- The string a pointer to `bytes` denotes: what stands before the first NUL. -/
def cstr (bytes : List UInt8) : Str := bytes.takeWhile (· != 0)

/-- No character of the string is the terminator. -/
def NulFree (s : Str) : Prop := ∀ c ∈ s, c ≠ 0

instance (s : Str) : Decidable (NulFree s) := List.decidableBAll (fun c => c ≠ 0) s

@[simp] theorem cstr_nil : cstr [] = [] := rfl

/-- What stands behind a terminator is not read. -/
theorem cstr_append_cons_nul (bytes rest : List UInt8) :
    cstr (bytes ++ 0 :: rest) = cstr bytes := by
  induction bytes with
  | nil => simp [cstr]
  | cons c bytes ih =>
    simp only [cstr, List.cons_append, List.takeWhile_cons] at ih ⊢
    rw [ih]

theorem cstr_of_nulFree {s : Str} (hs : NulFree s) : cstr s = s :=
  List.takeWhile_eq_self_iff.mpr fun c hc => by simpa using hs c hc

/-- Reading back a string that was stored with its terminator. -/
theorem cstr_append_nul {s : Str} (hs : NulFree s) (rest : List UInt8) :
    cstr (s ++ 0 :: rest) = s := by
  rw [cstr_append_cons_nul, cstr_of_nulFree hs]

/-- The string a pointer denotes never holds a terminator. -/
theorem cstr_nulFree (bytes : List UInt8) : NulFree (cstr bytes) := by
  intro c hc
  simpa using List.mem_takeWhile_imp hc

theorem NulFree.append {s t : Str} (hs : NulFree s) (ht : NulFree t) : NulFree (s ++ t) := by
  intro c hc
  rcases List.mem_append.mp hc with h | h
  · exact hs c h
  · exact ht c h

/-- `strncat(dst, src, n)`: at most `n` characters of `src` are appended. -/
def strncat (dst src : Str) (n : Nat) : Str := dst ++ src.take n

theorem strncat_of_le {dst src : Str} {n : Nat} (h : src.length ≤ n) :
    strncat dst src n = dst ++ src := by
  rw [strncat, List.take_of_length_le h]

theorem nulFree_strncat {dst src : Str} (hd : NulFree dst) (hs : NulFree src) (n : Nat) :
    NulFree (strncat dst src n) :=
  hd.append fun c hc => hs c (List.mem_of_mem_take hc)

/-- `strncmp(a, b, strlen(b)) == 0`: `a` starts with `b`. -/
def strncmp_eq (a b : Str) : Bool := b.isPrefixOf a

/-- `strchr(s, c)`: the text before the first `c` and the text after it. -/
def strchr (s : Str) (c : UInt8) : Option (Str × Str) :=
  match s with
  | [] => none
  | d :: rest =>
    if d = c then some ([], rest)
    else (strchr rest c).map fun p => (d :: p.1, p.2)

theorem strchr_append {s : Str} {c : UInt8} (h : c ∉ s) (rest : Str) :
    strchr (s ++ c :: rest) c = some (s, rest) := by
  induction s with
  | nil => simp [strchr]
  | cons d s ih =>
    rw [List.mem_cons, not_or] at h
    obtain ⟨hd, htail⟩ := h
    simp [strchr, Ne.symm hd, ih htail]

/-- `strrchr(s, c)`: the text before the last `c` and the text after it. -/
def strrchr (s : Str) (c : UInt8) : Option (Str × Str) :=
  (strchr s.reverse c).map fun p => (p.2.reverse, p.1.reverse)

/-- What `strchr` finds. -/
theorem strchr_eq_some {s before behind : Str} {c : UInt8}
    (h : strchr s c = some (before, behind)) : s = before ++ c :: behind ∧ c ∉ before := by
  induction s generalizing before with
  | nil => cases h
  | cons d s ih =>
    rw [strchr] at h
    split at h
    · rename_i hd
      cases h
      exact ⟨by rw [hd]; rfl, List.not_mem_nil⟩
    · rename_i hd
      obtain ⟨⟨before', behind'⟩, htail, hpair⟩ := Option.map_eq_some_iff.mp h
      cases hpair
      obtain ⟨rfl, hnot⟩ := ih htail
      refine ⟨rfl, ?_⟩
      rw [List.mem_cons, not_or]
      exact ⟨Ne.symm hd, hnot⟩

/-- What `strchr` finds is found in every longer text. -/
theorem strchr_of_prefix {s t : Str} {c : UInt8} {before after : Str} (hpre : s <+: t)
    (h : strchr s c = some (before, after)) :
    ∃ more, strchr t c = some (before, after ++ more) := by
  obtain ⟨more, rfl⟩ := hpre
  refine ⟨more, ?_⟩
  induction s generalizing before with
  | nil => cases h
  | cons d s ih =>
    rw [List.cons_append]
    rw [strchr] at h ⊢
    split at h
    · rename_i hd
      cases h
      rw [if_pos hd]
    · rename_i hd
      obtain ⟨⟨before', after'⟩, hfound, hp⟩ := Option.map_eq_some_iff.mp h
      cases hp
      rw [if_neg hd, ih hfound]
      rfl

theorem strchr_isSome_iff {s : Str} {c : UInt8} : (strchr s c).isSome ↔ c ∈ s := by
  induction s with
  | nil => simp [strchr]
  | cons d s ih =>
    rw [strchr, List.mem_cons]
    split
    · rename_i hd
      simp [hd]
    · rename_i hd
      rw [Option.isSome_map, ih]
      simp [Ne.symm hd]

theorem strrchr_eq_some_iff {s before behind : Str} {c : UInt8} :
    strrchr s c = some (before, behind) ↔ s = before ++ c :: behind ∧ c ∉ behind := by
  constructor
  · intro h
    obtain ⟨⟨p, q⟩, hfound, hpair⟩ := Option.map_eq_some_iff.mp h
    cases hpair
    obtain ⟨hs, hnot⟩ := strchr_eq_some hfound
    refine ⟨?_, by simpa using hnot⟩
    rw [← s.reverse_reverse, hs]
    simp
  · rintro ⟨rfl, hnot⟩
    have hfound : strchr (behind.reverse ++ c :: before.reverse) c =
        some (behind.reverse, before.reverse) := strchr_append (by simpa using hnot) _
    rw [strrchr, List.reverse_append, List.reverse_cons, List.append_assoc, List.singleton_append,
      hfound]
    simp

/-- `strncmp(a, b, n) == 0`: the strings agree up to a terminator or for `n` characters. -/
def strncmp_zero (a b : Str) (n : Nat) : Bool := (a ++ [0]).take n = (b ++ [0]).take n

/-- With a count that takes in the terminator of `b`. -/
theorem strncmp_zero_iff {a b : Str} (ha : NulFree a) (hb : NulFree b) :
    strncmp_zero a b (b.length + 1) = true ↔ a = b := by
  have hwhole : ∀ s : Str, (s ++ [0]).take (s.length + 1) = s ++ [0] :=
    fun s => List.take_of_length_le (Nat.le_of_eq (by simp))
  rw [strncmp_zero, decide_eq_true_iff, hwhole]
  constructor
  · intro h
    obtain ⟨rest, hrest⟩ : b ++ [0] <+: a ++ [0] := h ▸ List.take_prefix _ _
    rw [List.append_assoc] at hrest
    exact (cstr_append_nul ha []).symm.trans ((congrArg cstr hrest).symm.trans
      (cstr_append_nul hb rest))
  · rintro rfl
    exact hwhole a

/-! ## Tokens -/

/-- One call of `strtok_r` on the text `s` at its cursor.  Leading delimiters
are skipped; the token ends at the next delimiter, which is overwritten by a
NUL, and the cursor moves past it.  The result is the token, `none` when only
delimiters are left, and the text at the new cursor. -/
def strtok_r (s delims : Str) : Option Str × Str :=
  let start := s.dropWhile fun c => delims.contains c
  if start.isEmpty then
    (none, [])
  else
    (some (start.takeWhile fun c => !delims.contains c),
      (start.dropWhile fun c => !delims.contains c).drop 1)

/-- The string left at the pointer `strtok_r` was given: its first token keeps
the skipped delimiters before it, and what followed is cut off by the NUL. -/
def strtok_head (s delims : Str) : Str :=
  (s.takeWhile fun c => delims.contains c) ++ ((strtok_r s delims).1.getD [])

@[simp] theorem strtok_r_nil (delims : Str) : strtok_r [] delims = (none, []) := rfl

/-- A token in front of a delimiter is returned whole, and the cursor stands
right after that delimiter. -/
theorem strtok_r_token {tok delims : Str} {d : UInt8} (hne : tok ≠ [])
    (htok : ∀ c ∈ tok, c ∉ delims) (hd : d ∈ delims) (rest : Str) :
    strtok_r (tok ++ d :: rest) delims = (some tok, rest) := by
  have hstart : (tok ++ d :: rest).dropWhile (fun c => delims.contains c) = tok ++ d :: rest := by
    obtain ⟨c, tok, rfl⟩ := List.exists_cons_of_ne_nil hne
    have hc : c ∉ delims := htok c List.mem_cons_self
    simp [hc]
  have hall : ∀ c ∈ tok, (!delims.contains c) = true := by
    intro c hc
    simpa using htok c hc
  simp only [strtok_r, hstart]
  rw [List.takeWhile_append_of_pos hall, List.dropWhile_append_of_pos hall]
  simp [hd]

/-- The last token of a string ends at its terminator. -/
theorem strtok_r_last {tok delims : Str} (hne : tok ≠ []) (htok : ∀ c ∈ tok, c ∉ delims) :
    strtok_r tok delims = (some tok, []) := by
  have hstart : tok.dropWhile (fun c => delims.contains c) = tok := by
    obtain ⟨c, tok, rfl⟩ := List.exists_cons_of_ne_nil hne
    have hc : c ∉ delims := htok c List.mem_cons_self
    simp [hc]
  have hall : ∀ c ∈ tok, (!delims.contains c) = true := by
    intro c hc
    simpa using htok c hc
  simp only [strtok_r, hstart]
  rw [List.takeWhile_eq_self_iff.mpr hall, List.dropWhile_eq_nil_iff.mpr hall]
  simp [hne]

/-- Leading delimiters are skipped. -/
theorem strtok_r_lead {lead delims : Str} (h : ∀ c ∈ lead, c ∈ delims) (s : Str) :
    strtok_r (lead ++ s) delims = strtok_r s delims := by
  have hlead : ∀ c ∈ lead, delims.contains c = true := by
    intro c hc
    simpa using h c hc
  rw [strtok_r, strtok_r, List.dropWhile_append_of_pos hlead]

/-- **What one call can do.**  Only delimiters are left, or the text is some
delimiters, a token without any, and a rest whose first character is one. -/
theorem strtok_r_cases (s delims : Str) :
    ((∀ c ∈ s, c ∈ delims) ∧ strtok_r s delims = (none, [])) ∨
    ∃ lead tok tail, s = lead ++ (tok ++ tail) ∧ (∀ c ∈ lead, c ∈ delims) ∧ tok ≠ [] ∧
      (∀ c ∈ tok, c ∉ delims) ∧ (∀ d ∈ tail.head?, d ∈ delims) ∧
      strtok_r s delims = (some tok, tail.drop 1) := by
  have hs := List.takeWhile_append_dropWhile (p := fun c => delims.contains c) (l := s)
  have hlead : ∀ c ∈ s.takeWhile fun c => delims.contains c, c ∈ delims := by
    intro c hc
    have := List.mem_takeWhile_imp (p := fun c => delims.contains c) hc
    simpa using this
  by_cases hstart : (s.dropWhile fun c => delims.contains c) = []
  · refine Or.inl ⟨?_, by rw [strtok_r, hstart]; rfl⟩
    rw [hstart, List.append_nil] at hs
    exact hs ▸ hlead
  · obtain ⟨d, start, hd⟩ := List.exists_cons_of_ne_nil hstart
    have hnot : delims.contains d = false := by
      have := List.head?_dropWhile_not (fun c => delims.contains c) s
      rw [hd] at this
      simpa using this
    refine Or.inr ⟨_, (d :: start).takeWhile (fun c => !delims.contains c),
      (d :: start).dropWhile (fun c => !delims.contains c), ?_, hlead, ?_, ?_, ?_, ?_⟩
    · rw [List.takeWhile_append_dropWhile, ← hd, hs]
    · rw [List.takeWhile_cons, hnot]
      exact List.cons_ne_nil _ _
    · intro c hc
      have := List.mem_takeWhile_imp (p := fun c => !delims.contains c) hc
      simpa using this
    · intro e he
      have := List.head?_dropWhile_not (fun c => !delims.contains c) (d :: start)
      rw [Option.mem_def.mp he] at this
      simpa using this
    · rw [strtok_r, hd]
      rfl

/-- What a call leaves at the pointer it was given has nothing after its first token. -/
theorem strtok_r_strtok_head (s delims : Str) :
    (strtok_r (strtok_head s delims) delims).2 = [] := by
  rcases strtok_r_cases s delims with
    ⟨hall, hnone⟩ | ⟨lead, tok, tail, hs, hlead, hne, htok, -, hsome⟩
  · have hall' : ∀ c ∈ s, delims.contains c = true := by
      intro c hc
      simpa using hall c hc
    rw [strtok_head, hnone, List.takeWhile_eq_self_iff.mpr hall', Option.getD_none,
      List.append_nil, hnone]
  · obtain ⟨d, tok', rfl⟩ := List.exists_cons_of_ne_nil hne
    have hd : delims.contains d = false := by
      simpa using htok d List.mem_cons_self
    have hlead' : ∀ c ∈ lead, delims.contains c = true := by
      intro c hc
      simpa using hlead c hc
    have hhead : strtok_head s delims = lead ++ d :: tok' := by
      rw [strtok_head, hsome, hs, List.takeWhile_append_of_pos hlead', List.cons_append,
        List.takeWhile_cons, hd]
      simp
    rw [hhead, strtok_r_lead hlead, strtok_r_last hne htok]

/-! ## All the tokens of a text -/

/-- The pieces of the text between delimiters, without the empty ones. -/
def tokens (s delims : Str) : List Str :=
  (s.splitOnP fun c => delims.contains c).filter fun tok => !tok.isEmpty

@[simp] theorem tokens_nil (delims : Str) : tokens [] delims = [] := rfl

theorem tokens_cons_delim {d : UInt8} {delims : Str} (hd : d ∈ delims) (s : Str) :
    tokens (d :: s) delims = tokens s delims := by
  simp [tokens, List.splitOnP_cons_eq_if_modifyHead, hd]

theorem tokens_lead {lead delims : Str} (h : ∀ c ∈ lead, c ∈ delims) (s : Str) :
    tokens (lead ++ s) delims = tokens s delims := by
  induction lead with
  | nil => rfl
  | cons d lead ih =>
    rw [List.cons_append, tokens_cons_delim (h d List.mem_cons_self)]
    exact ih fun c hc => h c (List.mem_cons_of_mem _ hc)

/-- A token in front of a delimiter comes first. -/
theorem tokens_token {tok delims : Str} {d : UInt8} (hne : tok ≠ [])
    (htok : ∀ c ∈ tok, c ∉ delims) (hd : d ∈ delims) (rest : Str) :
    tokens (tok ++ d :: rest) delims = tok :: tokens rest delims := by
  have hnot : ∀ c ∈ tok, delims.contains c = false := by
    intro c hc
    simpa using htok c hc
  rw [tokens, List.splitOnP_append_cons_of_forall_mem hnot d (by simpa using hd),
    List.filter_cons_of_pos (by simpa using hne)]
  rfl

theorem tokens_last {tok delims : Str} (hne : tok ≠ []) (htok : ∀ c ∈ tok, c ∉ delims) :
    tokens tok delims = [tok] := by
  have hnot : ∀ c ∈ tok, delims.contains c = false := by
    intro c hc
    simpa using htok c hc
  rw [tokens, List.splitOnP_eq_singleton hnot]
  simp [hne]

/-- **One call** takes the first token off the text. -/
theorem tokens_strtok_r (s delims : Str) :
    (strtok_r s delims).1 = (tokens s delims).head? ∧
      tokens (strtok_r s delims).2 delims = (tokens s delims).tail := by
  rcases strtok_r_cases s delims with ⟨hall, h⟩ | ⟨lead, tok, tail, hs, hlead, hne, htok, hd, h⟩
  · have hnil := tokens_lead hall []
    rw [List.append_nil] at hnil
    rw [h, hnil]
    exact ⟨rfl, rfl⟩
  · rw [h, hs, tokens_lead hlead]
    cases tail with
    | nil =>
      rw [List.append_nil, tokens_last hne htok]
      exact ⟨rfl, rfl⟩
    | cons d tail =>
      rw [tokens_token hne htok (hd d rfl)]
      exact ⟨rfl, rfl⟩

/-- A call returns characters of the text, and leaves characters of it. -/
theorem strtok_r_subset (s delims : Str) :
    (∀ tok, (strtok_r s delims).1 = some tok → tok ⊆ s) ∧ (strtok_r s delims).2 ⊆ s := by
  rcases strtok_r_cases s delims with ⟨-, h⟩ | ⟨lead, tok, tail, rfl, -, -, -, -, h⟩
  · rw [h]
    exact ⟨fun tok htok => (nomatch htok), List.nil_subset s⟩
  · rw [h]
    refine ⟨fun tok' htok' => ?_, fun c hc => ?_⟩
    · cases htok'
      intro c hc
      exact List.mem_append_right _ (List.mem_append_left _ hc)
    · exact List.mem_append_right _ (List.mem_append_right _ (List.mem_of_mem_drop hc))

theorem tokens_subset {s delims tok : Str} (h : tok ∈ tokens s delims) : tok ⊆ s := by
  obtain ⟨hfirst, hrest⟩ := tokens_strtok_r s delims
  obtain ⟨hsub, hsub'⟩ := strtok_r_subset s delims
  induction htoks : tokens s delims generalizing s with
  | nil => rw [htoks] at h; cases h
  | cons tok' toks ih =>
    rw [htoks] at h hfirst hrest
    rcases List.mem_cons.mp h with rfl | h
    · exact hsub _ hfirst
    · obtain ⟨hfirst', hrest'⟩ := tokens_strtok_r (strtok_r s delims).2 delims
      obtain ⟨hsub₁, hsub₂⟩ := strtok_r_subset (strtok_r s delims).2 delims
      have hrec := ih (by rw [hrest]; exact h) hfirst' hrest' hsub₁ hsub₂ hrest
      exact List.Subset.trans hrec hsub'

theorem tokens_length_le (s delims : Str) : (tokens s delims).length ≤ s.length + 1 := by
  apply (List.length_filter_le _ _).trans
  induction s with
  | nil => exact Nat.le_refl 1
  | cons c s ih =>
    rw [List.splitOnP_cons_eq_if_modifyHead]
    split
    · exact Nat.succ_le_succ ih
    · rw [List.length_modifyHead]
      exact ih.trans (Nat.le_succ _)

/-- Tokens written one after the other with a delimiter between them. -/
theorem tokens_intercalate {toks : List Str} {d : UInt8} {delims : Str}
    (htoks : ∀ tok ∈ toks, tok ≠ [] ∧ ∀ c ∈ tok, c ∉ delims) (hd : d ∈ delims) :
    tokens ([d].intercalate toks) delims = toks := by
  induction toks with
  | nil => rfl
  | cons tok toks ih =>
    obtain ⟨hne, htok⟩ := htoks tok List.mem_cons_self
    have htail := ih fun tok h => htoks tok (List.mem_cons_of_mem _ h)
    cases toks with
    | nil =>
      rw [List.intercalate_singleton]
      exact tokens_last hne htok
    | cons tok' toks =>
      rw [List.intercalate_cons_cons, List.append_assoc, List.singleton_append,
        tokens_token hne htok hd, htail]

end CString
