import Mathlib.Data.List.Basic

/-! # Loops around `recv`

The loop `while ((res = recv(fd, buffer, size, 0))) { buffer[res] = '\0'; body }`, with the
results of the calls as a list.  Only 0 ends it: an error is -1, goes through the test, and
becomes the index of the terminator and the length handed to the body.  What the loop does
with every result is `Proper`; it is, exactly when the connection is closed before it fails
and no message before that keeps the body for ever (`proper_run_iff`).
-/
namespace RecvLoop

/-- What one call of `recv` does with a buffer of `size` bytes. -/
inductive Result (size : Nat) where
  | data (bytes : List UInt8) (pos : 0 < bytes.length) (le : bytes.length ≤ size)
  | close
  | error
  deriving DecidableEq, Repr

namespace Result
variable {size : Nat}

/-- The value returned. -/
def res : Result size → Int
  | .data bytes _ _ => bytes.length
  | .close => 0
  | .error => -1

/-- The buffer after the call and after `buffer[res] = '\0'`.  An error leaves it as it
was, and the terminator goes to the byte before it. -/
def store (buffer : List UInt8) : Result size → List UInt8
  | .data bytes _ _ => bytes ++ 0 :: buffer.drop (bytes.length + 1)
  | .close => buffer
  | .error => buffer

theorem res_data_pos {bytes : List UInt8} (pos : 0 < bytes.length) (le : bytes.length ≤ size) :
    0 < (data bytes pos le).res :=
  Int.natCast_pos.mpr pos

end Result

/-- How a loop stands when the results are used up. -/
inductive Stop where
  /-- In `recv`. -/
  | waiting
  /-- In a body that does not come back. -/
  | stuck
  /-- Behind the loop. -/
  | left
  deriving DecidableEq, Repr

/-- A loop that was run: the state, and for each turn the index of the terminator, which is
also the length handed to the body. -/
structure Run (S : Type) where
  state : S
  turns : List Int
  stop : Stop
  deriving DecidableEq, Repr

variable {W S : Type} {size : Nat}

/-- The run with one turn before it. -/
def Run.after (r : Run S) (i : Int) : Run S := { r with turns := i :: r.turns }

section Loop
variable (body : W → S → List UInt8 → Int → Option (S × List UInt8))

/-- The loop.  `body` gets what the surroundings supply to the turn, the state, the buffer
and the length, and may change the buffer. -/
def run : S → List UInt8 → List (W × Result size) → Run S
  | s, _, [] => ⟨s, [], .waiting⟩
  | s, buffer, (w, r) :: rest =>
    if r.res = 0 then ⟨s, [], .left⟩
    else
      match body w s (r.store buffer) r.res with
      | none => ⟨s, [r.res], .stuck⟩
      | some (s', buffer') => (run s' buffer' rest).after r.res

/-- The loop, and what comes behind it. -/
def handle (cleanup : S → S) (s : S) (buffer : List UInt8) (results : List (W × Result size)) :
    Run S :=
  let r := run body s buffer results
  if r.stop = .left then { r with state := cleanup r.state } else r

end Loop

/-- Every terminator is within the buffer and every length is positive; at the first result
that is not positive the loop is left, with one turn for each result before it. -/
structure Proper (results : List (Result size)) (r : Run S) : Prop where
  index : ∀ i ∈ r.turns, 0 ≤ i ∧ i ≤ size
  positive : ∀ i ∈ r.turns, 0 < i
  left : ∀ pre last post, results = pre ++ last :: post → (∀ r ∈ pre, 0 < r.res) →
    last.res ≤ 0 → r.stop = .left ∧ r.turns = pre.map Result.res

/-- Besides, the state is as it should be once the loop is left. -/
structure Handled (results : List (Result size)) (Clean : S → Prop) (r : Run S) : Prop
    extends Proper results r where
  clean : r.stop = .left → Clean r.state

/-! ## One result -/

section First
variable {results : List (Result size)} {s : S} {turns : List Int} {stop : Stop}

theorem proper_nil (s : S) : Proper ([] : List (Result size)) ⟨s, [], .waiting⟩ where
  index i hi := nomatch hi
  positive i hi := nomatch hi
  left pre last post h := by cases pre <;> cases h

theorem proper_close (s : S) : Proper (.close :: results) ⟨s, [], .left⟩ where
  index i hi := nomatch hi
  positive i hi := nomatch hi
  left pre last post h hpre _ := by
    cases pre with
    | nil => exact ⟨rfl, rfl⟩
    | cons r pre =>
      cases h
      exact absurd (hpre .close List.mem_cons_self) (Int.lt_irrefl 0)

/-- Nothing that goes on after an error is proper. -/
theorem not_proper_error {r : Run S} (h : -1 ∈ r.turns) : ¬ Proper (.error :: results) r :=
  fun hproper => absurd (hproper.positive _ h) (by decide)

variable {bytes : List UInt8} (pos : 0 < bytes.length) (le : bytes.length ≤ size)

/-- A body that does not come back. -/
theorem proper_stuck_iff :
    Proper (.data bytes pos le :: results) ⟨s, [(bytes.length : Int)], .stuck⟩ ↔
      ∀ r ∈ results, 0 < r.res := by
  constructor
  · intro h
    by_contra hnot
    -- the first result that is not positive
    obtain ⟨pre, last, post, hsplit, hpre, hlast⟩ :
        ∃ pre last post, results = pre ++ last :: post ∧ (∀ r ∈ pre, 0 < r.res) ∧
          last.res ≤ 0 := by
      clear h
      induction results with
      | nil => exact absurd (fun r hr => nomatch hr) hnot
      | cons r results ih =>
        by_cases hr : 0 < r.res
        · obtain ⟨pre, last, post, rfl, hpre, hlast⟩ := ih fun hall => hnot fun r' hr' => by
            rcases List.mem_cons.mp hr' with rfl | hr'
            · exact hr
            · exact hall r' hr'
          exact ⟨r :: pre, last, post, rfl, List.forall_mem_cons.mpr ⟨hr, hpre⟩, hlast⟩
        · exact ⟨[], r, results, rfl, fun r' hr' => (nomatch hr'), Int.not_lt.mp hr⟩
    have hleft := h.left (.data bytes pos le :: pre) last post (by rw [hsplit]; rfl)
      (List.forall_mem_cons.mpr ⟨Result.res_data_pos pos le, hpre⟩) hlast
    cases hleft.1
  · intro hall
    refine ⟨fun i hi => ?_, fun i hi => ?_, fun pre last post h hpre hlast => ?_⟩
    · rw [List.mem_singleton.mp hi]
      exact ⟨Int.natCast_nonneg _, Int.ofNat_le.mpr le⟩
    · rw [List.mem_singleton.mp hi]
      exact Int.natCast_pos.mpr pos
    · have hmem : last ∈ Result.data bytes pos le :: results := by
        rw [h]
        exact List.mem_append_right _ List.mem_cons_self
      rcases List.mem_cons.mp hmem with rfl | hmem
      · exact absurd (Result.res_data_pos pos le) (Int.not_lt.mpr hlast)
      · exact absurd (hall last hmem) (Int.not_lt.mpr hlast)

/-- A body that comes back. -/
theorem proper_data_iff (r : Run S) :
    Proper (.data bytes pos le :: results) (r.after (Result.data bytes pos le).res) ↔
      Proper results r := by
  have hpos := Result.res_data_pos pos le
  constructor
  · intro h
    refine ⟨fun i hi => h.index i (List.mem_cons_of_mem _ hi),
      fun i hi => h.positive i (List.mem_cons_of_mem _ hi),
      fun pre last post hsplit hpre hlast => ?_⟩
    have hleft := h.left (.data bytes pos le :: pre) last post (by rw [hsplit]; rfl)
      (List.forall_mem_cons.mpr ⟨hpos, hpre⟩) hlast
    exact ⟨hleft.1, (List.cons.inj hleft.2).2⟩
  · intro h
    refine ⟨List.forall_mem_cons.mpr ⟨⟨Int.le_of_lt hpos, Int.ofNat_le.mpr le⟩, h.index⟩,
      List.forall_mem_cons.mpr ⟨hpos, h.positive⟩, fun pre last post hsplit hpre hlast => ?_⟩
    cases pre with
    | nil =>
      cases hsplit
      exact absurd hpos (Int.not_lt.mpr hlast)
    | cons r' pre =>
      obtain ⟨rfl, hrest⟩ := List.cons.inj hsplit
      have hleft := h.left pre last post hrest
        (fun r hr => hpre r (List.mem_cons_of_mem _ hr)) hlast
      exact ⟨hleft.1, congrArg _ hleft.2⟩

end First

/-! ## All results -/

section Whole
variable (Ready : W → S → List UInt8 → Prop) (next : W → S → List UInt8 → S)

/-- The connection is closed before it fails, if it ends at all, and the body comes back
from each message before that: it does from those that meet `Ready`, with the state `next`. -/
def Closes : S → List (W × Result size) → Prop
  | _, [] => True
  | _, (_, .close) :: _ => True
  | _, (_, .error) :: _ => False
  | s, (w, .data bytes _ _) :: rest =>
    (Ready w s bytes ∧ Closes (next w s bytes) rest) ∨
      (¬ Ready w s bytes ∧ ∀ r ∈ rest, 0 < r.2.res)

/-- What a body does with a message: it comes back exactly when the message meets `Ready`. -/
structure Behaves (body : W → S → List UInt8 → Int → Option (S × List UInt8)) : Prop where
  ready : ∀ w s bytes behind, Ready w s bytes →
    ∃ buffer', body w s (bytes ++ 0 :: behind) bytes.length = some (next w s bytes, buffer')
  stuck : ∀ w s bytes behind, ¬ Ready w s bytes →
    body w s (bytes ++ 0 :: behind) bytes.length = none

variable {Ready next} {body : W → S → List UInt8 → Int → Option (S × List UInt8)}

/-- **The whole loop.** -/
theorem proper_run_iff (hbody : Behaves Ready next body) (s : S) (buffer : List UInt8)
    (results : List (W × Result size)) :
    Proper (results.map Prod.snd) (run body s buffer results) ↔ Closes Ready next s results := by
  induction results generalizing s buffer with
  | nil => exact iff_of_true (proper_nil s) trivial
  | cons first rest ih =>
    obtain ⟨w, r⟩ := first
    cases r with
    | close => exact iff_of_true (proper_close s) trivial
    | error =>
      refine iff_of_false (not_proper_error ?_) id
      rw [run, if_neg (show (Result.error : Result size).res ≠ 0 from (by decide : (-1 : Int) ≠ 0))]
      split
      · exact List.mem_singleton_self _
      · exact List.mem_cons_self
    | data bytes pos le =>
      have hne : (Result.data bytes pos le).res ≠ 0 := Int.ne_of_gt (Result.res_data_pos pos le)
      rw [run, if_neg hne, Closes]
      by_cases hready : Ready w s bytes
      · obtain ⟨buffer', hnext⟩ := hbody.ready w s bytes (buffer.drop (bytes.length + 1)) hready
        have hturn : body w s ((Result.data bytes pos le).store buffer)
            (Result.data bytes pos le).res = some (next w s bytes, buffer') := hnext
        rw [hturn, List.map_cons, proper_data_iff, ih]
        simp only [hready, true_and, not_true_eq_false, false_and, or_false]
      · have hturn : body w s ((Result.data bytes pos le).store buffer)
            (Result.data bytes pos le).res = none :=
          hbody.stuck w s bytes (buffer.drop (bytes.length + 1)) hready
        have hall : (∀ r ∈ rest.map Prod.snd, 0 < r.res) ↔ ∀ r ∈ rest, 0 < r.2.res :=
          List.forall_mem_map
        rw [hturn]
        refine (proper_stuck_iff pos le).trans (hall.trans ?_)
        simp only [hready, not_false_eq_true, true_and, false_and, false_or]

/-- What every turn keeps holds when the loop stops. -/
theorem run_invariant {Inv : S → Prop}
    (hstep : ∀ w s buffer i s' buffer', Inv s → body w s buffer i = some (s', buffer') → Inv s')
    {s : S} (h : Inv s) (buffer : List UInt8) (results : List (W × Result size)) :
    Inv (run body s buffer results).state := by
  induction results generalizing s buffer with
  | nil => exact h
  | cons first rest ih =>
    obtain ⟨w, r⟩ := first
    rw [run]
    split
    · exact h
    · cases hturn : body w s (r.store buffer) r.res with
      | none => exact h
      | some next => exact ih (hstep _ _ _ _ _ _ h hturn) _

/-- **A handler** that cleans up behind its loop. -/
theorem handled_iff (hbody : Behaves Ready next body) (Inv : S → Prop) {Clean : S → Prop}
    {cleanup : S → S}
    (hstep : ∀ w s buffer i s' buffer', Inv s → body w s buffer i = some (s', buffer') → Inv s')
    (hclean : ∀ s, Inv s → Clean (cleanup s)) {s : S} (h : Inv s) (buffer : List UInt8)
    (results : List (W × Result size)) :
    Handled (results.map Prod.snd) Clean (handle body cleanup s buffer results) ↔
      Closes Ready next s results := by
  rw [← proper_run_iff hbody s buffer results, handle]
  split
  · rename_i hleft
    constructor
    · intro hproper
      exact ⟨hproper.index, hproper.positive, hproper.left⟩
    · intro hproper
      exact ⟨⟨hproper.index, hproper.positive, hproper.left⟩,
        fun _ => hclean _ (run_invariant hstep h buffer results)⟩
  · rename_i hnot
    exact ⟨fun hproper => hproper.toProper,
      fun hproper => ⟨hproper, fun hleft => absurd hleft hnot⟩⟩

end Whole

end RecvLoop
