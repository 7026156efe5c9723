import AnonyChat.Lib.Machine
import Mathlib.Logic.Function.Basic

/-! # Threads that share resources without a lock

A thread is a tree of calls; each call works on one shared resource and hands its result
to the rest of the thread.  Threads run one call at a time, in any order.  Some calls set
their resource anew, some go on from what is there, some only spoil it.  When every call
that goes on finds the resource as its own thread left it, each thread is where it would
be had it run alone for as many calls (`exec_alone`): the other threads do not show.
-/
namespace Interleave
open Machine

/-- What a call does with the resource it finds. -/
inductive Kind where
  /-- It sets the resource anew. -/
  | reset
  /-- It goes on from what it finds. -/
  | use
  /-- It changes what it finds, and nothing comes of it. -/
  | clobber
  deriving DecidableEq, Repr

/-- The calls on a family of resources. -/
structure Calls (Res : Type) where
  X : Res → Type
  Call : Type
  R : Call → Type
  res : Call → Res
  kind : Call → Kind
  perform : (c : Call) → X (res c) → R c × X (res c)

variable {Res : Type} {K : Calls Res}

/-- The calls do what their kinds say. -/
structure Calls.Lawful (K : Calls Res) : Prop where
  reset : ∀ c, K.kind c = .reset → ∀ x y, K.perform c x = K.perform c y
  clobber : ∀ c, K.kind c = .clobber → ∀ r r' : K.R c, r = r'

/-- What an undisturbed call gives does not depend on the other threads. -/
theorem perform_result (hK : K.Lawful) {c : K.Call} {x y : K.X (K.res c)}
    (huse : K.kind c = .use → x = y) : (K.perform c x).1 = (K.perform c y).1 := by
  cases hkind : K.kind c with
  | reset => rw [hK.reset c hkind x y]
  | use => rw [huse hkind]
  | clobber => exact hK.clobber c hkind _ _

/-- What a thread has still to do. -/
inductive Prog (K : Calls Res) (α : Type) where
  | ret (a : α)
  | call (c : K.Call) (next : K.R c → Prog K α)

/-- The resources. -/
abbrev Shared (K : Calls Res) := (ρ : Res) → K.X ρ

/-- One thread after another. -/
def Prog.bind {α β : Type} (p : Prog K α) (f : α → Prog K β) : Prog K β :=
  match p with
  | .ret a => f a
  | .call c next => .call c fun r => (next r).bind f

instance : Monad (Prog K) where
  pure := .ret
  bind := Prog.bind

/-- The result of a thread that has ended. -/
def Prog.value {α : Type} : Prog K α → Option α
  | .ret a => some a
  | .call _ _ => none

theorem eq_ret_of_value {α : Type} {p : Prog K α} {a : α} (h : p.value = some a) : p = .ret a := by
  cases p with
  | ret b => rw [Option.some.inj h]
  | call c next => cases h

section Alone
variable [DecidableEq Res] {α : Type}

/-- One call of a thread. -/
def advance (p : Prog K α) (s : Shared K) : Prog K α × Shared K :=
  match p with
  | .ret a => (.ret a, s)
  | .call c next =>
    let r := K.perform c (s (K.res c))
    (next r.1, Function.update s (K.res c) r.2)

/-- A thread and the resources after a number of its calls, when no other thread runs. -/
def alone (p : Prog K α) (s : Shared K) : Nat → Prog K α × Shared K
  | 0 => (p, s)
  | n + 1 => advance (alone p s n).1 (alone p s n).2

/-- What a thread comes to alone, and the resources after it. -/
def finish (p : Prog K α) (s : Shared K) : α × Shared K :=
  match p with
  | .ret a => (a, s)
  | .call c next =>
    let r := K.perform c (s (K.res c))
    finish (next r.1) (Function.update s (K.res c) r.2)

theorem finish_advance (p : Prog K α) (s : Shared K) :
    finish (advance p s).1 (advance p s).2 = finish p s := by
  cases p <;> rfl

theorem finish_alone (p : Prog K α) (s : Shared K) (n : Nat) :
    finish (alone p s n).1 (alone p s n).2 = finish p s := by
  induction n with
  | zero => rfl
  | succ n ih => rw [alone, finish_advance, ih]

/-- A thread that has ended alone has come to its result. -/
theorem eq_finish_of_alone {p : Prog K α} {s : Shared K} {n : Nat} {a : α}
    (h : (alone p s n).1 = .ret a) : a = (finish p s).1 := by
  have := finish_alone p s n
  rw [h] at this
  exact congrArg Prod.fst this

theorem finish_bind {β : Type} (p : Prog K α) (f : α → Prog K β) (s : Shared K) :
    finish (p >>= f) s = finish (f (finish p s).1) (finish p s).2 := by
  induction p generalizing s with
  | ret a => rfl
  | call c next ih => exact ih _ _

end Alone

/-! ## Threads together -/

/-- The resources, what each thread has still to do, and whether the process still runs. -/
structure System (K : Calls Res) (Tid α : Type) where
  shared : Shared K
  threads : Tid → Prog K α
  halted : Bool

section Together
variable {Tid α : Type} [DecidableEq Res] [DecidableEq Tid]

/-- One call of the thread `t`, recorded.  A result that is `fatal` halts the process. -/
def step (fatal : α → Bool) (s : System K Tid α) (t : Tid) : System K Tid α × List (Tid × K.Call) :=
  if s.halted then (s, [])
  else
    match s.threads t with
    | .ret _ => (s, [])
    | .call c next =>
      let r := K.perform c (s.shared (K.res c))
      ({ shared := Function.update s.shared (K.res c) r.2
         threads := Function.update s.threads t (next r.1)
         halted := ((next r.1).value.map fatal).getD false }, [(t, c)])

/-- The thread whose calls alone have brought the resource to where it is. -/
def owner (ρ : Res) (log : List (Tid × K.Call)) : Option Tid :=
  log.foldl (fun o e =>
    if K.res e.2 = ρ then
      match K.kind e.2 with
      | .reset => some e.1
      | .use => if o = some e.1 then o else none
      | .clobber => none
    else o) none

/-- A thread about to go on from what it finds finds its own. -/
def Undisturbed (s : System K Tid α) (log : List (Tid × K.Call)) (t : Tid) : Prop :=
  s.halted = false → match s.threads t with
    | .ret _ => True
    | .call c _ => K.kind c = .use → owner (K.res c) log = some t

instance (s : System K Tid α) (log : List (Tid × K.Call)) (t : Tid) :
    Decidable (Undisturbed s log t) := by
  unfold Undisturbed
  cases s.threads t with
  | ret a => exact inferInstanceAs (Decidable (_ → True))
  | call c next => exact inferInstanceAs (Decidable (_ → _ → _))

/-- The number of calls a thread has made. -/
def made (t : Tid) (log : List (Tid × K.Call)) : Nat := (log.map Prod.fst).count t

/-- Each thread is where it would be alone, and so are the resources it owns. -/
def Apart (threads : Tid → Prog K α) (shared : Shared K) (s : System K Tid α)
    (log : List (Tid × K.Call)) : Prop :=
  ∀ t, s.threads t = (alone (threads t) shared (made t log)).1 ∧
    ∀ ρ, owner ρ log = some t → s.shared ρ = (alone (threads t) shared (made t log)).2 ρ

omit [DecidableEq Res] in
theorem made_concat (t u : Tid) (log : List (Tid × K.Call)) (c : K.Call) :
    made t (log ++ [(u, c)]) = made t log + if u = t then 1 else 0 := by
  rw [made, List.map_append, List.count_append, ← made]
  by_cases h : u = t
  · simp [h]
  · simp [h]

theorem owner_concat (ρ : Res) (log : List (Tid × K.Call)) (t : Tid) (c : K.Call) :
    owner ρ (log ++ [(t, c)]) =
      if K.res c = ρ then
        match K.kind c with
        | .reset => some t
        | .use => if owner ρ log = some t then owner ρ log else none
        | .clobber => none
      else owner ρ log := by
  rw [owner, List.foldl_append]
  rfl

/-- Only the thread that makes a call can own its resource afterwards, and not after
spoiling it. -/
theorem of_owner_concat {ρ : Res} {log : List (Tid × K.Call)} {t u : Tid} {c : K.Call}
    (hc : K.res c = ρ) (h : owner ρ (log ++ [(t, c)]) = some u) :
    t = u ∧ (K.kind c = .reset ∨ K.kind c = .use ∧ owner ρ log = some t) := by
  rw [owner_concat, if_pos hc] at h
  cases hkind : K.kind c with
  | reset =>
    rw [hkind] at h
    exact ⟨Option.some.inj h, Or.inl rfl⟩
  | use =>
    rw [hkind] at h
    by_cases ho : owner ρ log = some t
    · simp only [if_pos ho] at h
      exact ⟨Option.some.inj (ho.symm.trans h), Or.inr ⟨rfl, ho⟩⟩
    · simp only [if_neg ho] at h
      cases h
  | clobber =>
    rw [hkind] at h
    cases h

section Step
variable {threads : Tid → Prog K α} {shared : Shared K} {s : System K Tid α}
  {log : List (Tid × K.Call)} {t : Tid}

/-- An undisturbed call brings its thread where the call alone would have brought it. -/
theorem Apart.caller (hK : K.Lawful) (h : Apart threads shared s log) {c : K.Call}
    {next : K.R c → Prog K α} (hprog : s.threads t = .call c next)
    (hP : K.kind c = .use → owner (K.res c) log = some t) :
    next (K.perform c (s.shared (K.res c))).1 =
        (alone (threads t) shared (made t log + 1)).1 ∧
      ∀ ρ, owner ρ (log ++ [(t, c)]) = some t →
        Function.update s.shared (K.res c) (K.perform c (s.shared (K.res c))).2 ρ =
          (alone (threads t) shared (made t log + 1)).2 ρ := by
  obtain ⟨hthread, howned⟩ := h t
  have huse : K.kind c = .use →
      s.shared (K.res c) = (alone (threads t) shared (made t log)).2 (K.res c) :=
    fun hkind => howned _ (hP hkind)
  rw [alone, ← hthread, hprog]
  refine ⟨?_, fun ρ hρ => ?_⟩
  · rw [perform_result hK huse]
    rfl
  · show _ = Function.update _ (K.res c) _ ρ
    by_cases hres : K.res c = ρ
    · subst hres
      rw [Function.update_self, Function.update_self]
      obtain ⟨-, hkind | ⟨hkind, -⟩⟩ := of_owner_concat rfl hρ
      · rw [hK.reset c hkind]
      · rw [huse hkind]
    · rw [Function.update_of_ne (Ne.symm hres), Function.update_of_ne (Ne.symm hres)]
      rw [owner_concat, if_neg hres] at hρ
      exact howned ρ hρ

/-- A call takes its resource from every other thread, and leaves them the others. -/
theorem Apart.bystander (h : Apart threads shared s log) {u : Tid} (hu : t ≠ u) (c : K.Call)
    (x : K.X (K.res c)) {ρ : Res} (hρ : owner ρ (log ++ [(t, c)]) = some u) :
    Function.update s.shared (K.res c) x ρ = (alone (threads u) shared (made u log)).2 ρ := by
  by_cases hres : K.res c = ρ
  · exact absurd (of_owner_concat hres hρ).1 hu
  · rw [owner_concat, if_neg hres] at hρ
    rw [Function.update_of_ne (Ne.symm hres)]
    exact (h u).2 ρ hρ

/-- **One call** keeps every thread apart from the others. -/
theorem Apart.step (hK : K.Lawful) (fatal : α → Bool) (h : Apart threads shared s log)
    (hP : Undisturbed s log t) :
    Apart threads shared (step fatal s t).1 (log ++ (step fatal s t).2) := by
  unfold Interleave.step
  by_cases hhalted : s.halted = true
  · rw [if_pos hhalted, List.append_nil]
    exact h
  rw [if_neg hhalted]
  have hP := hP (Bool.eq_false_iff.mpr hhalted)
  cases hprog : s.threads t with
  | ret a =>
    rw [List.append_nil]
    exact h
  | call c next =>
    rw [hprog] at hP
    intro u
    rw [made_concat]
    by_cases hu : t = u
    · subst hu
      rw [if_pos rfl]
      show Function.update s.threads t _ t = _ ∧ _
      rw [Function.update_self]
      exact h.caller hK hprog hP
    · rw [if_neg hu, Nat.add_zero]
      show Function.update s.threads t _ u = _ ∧ _
      rw [Function.update_of_ne (Ne.symm hu)]
      exact ⟨(h u).1, fun ρ hρ => h.bystander hu c _ hρ⟩

end Step

/-- **A whole run.**  While every call that goes on from what it finds finds its own
thread's, each thread is where it would be alone after as many calls. -/
theorem exec_apart (hK : K.Lawful) (fatal : α → Bool) (threads : Tid → Prog K α)
    (shared : Shared K) {schedule : List Tid}
    (hP : Always (step fatal) Undisturbed ⟨shared, threads, false⟩ schedule) :
    Apart threads shared (exec (step fatal) ⟨shared, threads, false⟩ schedule).1
      (exec (step fatal) ⟨shared, threads, false⟩ schedule).2 :=
  exec_invariant_always (step fatal) (Apart threads shared)
    (fun _ => ⟨rfl, fun _ hρ => by cases hρ⟩)
    (fun _ _ _ h hP => h.step hK fatal hP) hP

end Together

end Interleave
