import Mathlib.Data.List.Induction

/-! # Runs of a deterministic machine

A machine reads one input at a time, changes its state and emits a list of
outputs.  `exec` runs it over a list of inputs and collects the outputs.  Three
rules prove facts about whole runs from facts about one step: `exec_invariant`
for an invariant of the state and the outputs so far, `exec_invariant_always`
when every step meets a side condition, and `exec_related` for two machines
run side by side.
-/
namespace Machine
variable {S I O : Type} (step : S → I → S × List O)

/-- The state after a list of inputs, and everything emitted on the way. -/
def exec (s : S) : List I → S × List O
  | [] => (s, [])
  | i :: is =>
    ((exec (step s i).1 is).1, (step s i).2 ++ (exec (step s i).1 is).2)

@[simp] theorem exec_nil (s : S) : exec step s [] = (s, []) := rfl

theorem exec_append (s : S) (is js : List I) :
    exec step s (is ++ js) =
      ((exec step (exec step s is).1 js).1,
        (exec step s is).2 ++ (exec step (exec step s is).1 js).2) := by
  induction is generalizing s with
  | nil => rfl
  | cons i is ih => simp [exec, ih]

theorem exec_concat (s : S) (is : List I) (i : I) :
    exec step s (is ++ [i]) =
      ((step (exec step s is).1 i).1,
        (exec step s is).2 ++ (step (exec step s is).1 i).2) := by
  simp [exec_append, exec]

/-- Every step of the run meets `P`, which may read the state before the step and
the outputs up to it. -/
def Always (P : S → List O → I → Prop) (s : S) (is : List I) : Prop :=
  ∀ pre i post, is = pre ++ i :: post → P (exec step s pre).1 (exec step s pre).2 i

theorem Always.of_append {P : S → List O → I → Prop} {s : S} {is js : List I}
    (h : Always step P s (is ++ js)) : Always step P s is := by
  rintro pre i post rfl
  exact h pre i (post ++ js) (by simp)

theorem always_concat {P : S → List O → I → Prop} {s : S} {is : List I} {i : I} :
    Always step P s (is ++ [i]) ↔
      Always step P s is ∧ P (exec step s is).1 (exec step s is).2 i := by
  constructor
  · intro h
    exact ⟨Always.of_append step h, h is i [] rfl⟩
  · rintro ⟨h, hi⟩ pre j post he
    rcases List.eq_nil_or_concat post with rfl | ⟨post, k, rfl⟩
    · obtain ⟨rfl, hj⟩ := List.append_inj' he rfl
      cases hj
      exact hi
    · rw [List.concat_eq_append, ← List.cons_append, ← List.append_assoc] at he
      exact h pre j post (List.append_inj' he rfl).1

/-- A condition on the inputs alone. -/
theorem Always.of_forall_mem {P : S → List O → I → Prop} {s : S} {is : List I}
    (h : ∀ i ∈ is, ∀ t out, P t out i) : Always step P s is := by
  rintro pre i post rfl
  exact h i (by simp) _ _

theorem always_singleton {P : S → List O → I → Prop} {s : S} {i : I} :
    Always step P s [i] ↔ P s [] i := by
  constructor
  · intro h
    exact h [] i [] rfl
  · intro h pre j post he
    cases pre with
    | nil =>
      cases he
      exact h
    | cons k pre =>
      cases pre <;> cases he

/-- The condition at the first step and, with the outputs of that step in front, at all others. -/
theorem always_cons {P : S → List O → I → Prop} {s : S} {i : I} {is : List I} :
    Always step P s (i :: is) ↔ P s [] i ∧
      Always step (fun t out j => P t ((step s i).2 ++ out) j) (step s i).1 is := by
  constructor
  · intro h
    refine ⟨h [] i is rfl, ?_⟩
    rintro pre j post rfl
    exact h (i :: pre) j post rfl
  · rintro ⟨hfirst, hrest⟩ pre j post he
    cases pre with
    | nil =>
      cases he
      exact hfirst
    | cons k pre =>
      obtain ⟨rfl, rfl⟩ := List.cons.inj he
      exact hrest pre j post rfl

/-- The condition, position by position. -/
theorem always_iff_forall_lt {P : S → List O → I → Prop} {s : S} {is : List I} :
    Always step P s is ↔ ∀ n, (h : n < is.length) →
      P (exec step s (is.take n)).1 (exec step s (is.take n)).2 is[n] := by
  constructor
  · intro hP n h
    apply hP (is.take n) is[n] (is.drop (n + 1))
    rw [← List.drop_eq_getElem_cons h, List.take_append_drop]
  · rintro hP pre i post rfl
    have := hP pre.length (by simp)
    simpa using this

instance {P : S → List O → I → Prop} [∀ s out i, Decidable (P s out i)] (s : S) (is : List I) :
    Decidable (Always step P s is) :=
  decidable_of_iff _ (always_iff_forall_lt step).symm

/-- An invariant that steps meeting `P` preserve holds at the end of every run
whose steps all meet `P`. -/
theorem exec_invariant_always {P : S → List O → I → Prop} (Inv : S → List O → Prop) {s : S}
    (h0 : Inv s [])
    (hstep : ∀ t out i, Inv t out → P t out i → Inv (step t i).1 (out ++ (step t i).2))
    {is : List I} (hP : Always step P s is) : Inv (exec step s is).1 (exec step s is).2 := by
  induction is using List.reverseRecOn with
  | nil => exact h0
  | append_singleton is i ih =>
    have hlast : P (exec step s is).1 (exec step s is).2 i := hP is i [] rfl
    rw [exec_concat]
    exact hstep _ _ i (ih (Always.of_append step hP)) hlast

/-- An invariant that every step preserves holds at the end of every run. -/
theorem exec_invariant (Inv : S → List O → Prop) {s : S} (h0 : Inv s [])
    (hstep : ∀ t out i, Inv t out → Inv (step t i).1 (out ++ (step t i).2)) (is : List I) :
    Inv (exec step s is).1 (exec step s is).2 :=
  exec_invariant_always step (P := fun _ _ _ => True) Inv h0
    (fun t out i hi _ => hstep t out i hi) (fun _ _ _ _ => trivial)

/-- **Two runs on the same inputs.**  When related states take every input to
related states and emit outputs that `view` cannot tell apart, whole runs do. -/
theorem exec_related (R : S → S → Prop) {V : Type} (view : List O → List V)
    (hview : ∀ xs ys, view (xs ++ ys) = view xs ++ view ys) (hnil : view [] = [])
    (hstep : ∀ s t i, R s t →
      R (step s i).1 (step t i).1 ∧ view (step s i).2 = view (step t i).2)
    {s t : S} (h : R s t) (is : List I) :
    R (exec step s is).1 (exec step t is).1 ∧
      view (exec step s is).2 = view (exec step t is).2 := by
  induction is generalizing s t with
  | nil => exact ⟨h, by simp [hnil]⟩
  | cons i is ih =>
    obtain ⟨hR, hv⟩ := hstep s t i h
    obtain ⟨hR', hv'⟩ := ih hR
    exact ⟨hR', by simp only [exec, hview, hv, hv']⟩

section Translation
variable {T J Q V : Type} (step' : T → J → T × List Q) (tr : Nat → S → I → List J)

/-- The inputs of a run, each replaced by inputs of another machine; the replacement may depend
on the number of the input and on the state before it. -/
def translate : Nat → S → List I → List J
  | _, _, [] => []
  | k, s, i :: is => tr k s i ++ translate (k + 1) (step s i).1 is

/-- **A run and its translation.**  When every input that meets the condition takes related
states to related states, and what is emitted on the way looks the same, whole runs look the
same. -/
theorem exec_translate (R : Nat → S → T → Prop) (P : S → I → Prop) (view : List O → List V)
    (view' : List Q → List V) (hview : ∀ xs ys, view (xs ++ ys) = view xs ++ view ys)
    (hview' : ∀ xs ys, view' (xs ++ ys) = view' xs ++ view' ys) (hnil : view [] = view' [])
    (hstep : ∀ k s t i, R k s t → P s i →
      R (k + 1) (step s i).1 (exec step' t (tr k s i)).1 ∧
        view (step s i).2 = view' (exec step' t (tr k s i)).2)
    {k : Nat} {s : S} {t : T} (h : R k s t) {is : List I}
    (hP : Always step (fun s _ i => P s i) s is) :
    view (exec step s is).2 = view' (exec step' t (translate step tr k s is)).2 := by
  induction is generalizing k s t with
  | nil => exact hnil
  | cons i is ih =>
    obtain ⟨hfirst, hrest⟩ := (always_cons step).mp hP
    obtain ⟨hR, hsame⟩ := hstep k s t i h hfirst
    rw [translate, exec, exec_append, hview, hview', hsame, ih hR hrest]

end Translation

end Machine
