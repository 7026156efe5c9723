import Mathlib.Logic.Function.Basic

/-! # Threads that share data under locks

A thread is a tree of actions: it locks, unlocks, and calls on the data a lock guards.
Threads take one action at a time, in any order; a thread that asks for a lock another one holds
waits.  When every thread touches data only while it holds the lock of that data, never asks for
a second lock and gives every lock back (`Disciplined`), two things hold in every run: somebody
can always go on (`progress`), and the data and the threads are where they would be had each
stretch from a lock to its release been one step, taken at the release (`run_simulated`).
-/
namespace Mutex

/-- Data guarded by locks, and the calls on it. -/
structure Guarded (L : Type) where
  X : L → Type
  Call : Type
  R : Call → Type
  guard : Call → L
  perform : (c : Call) → X (guard c) → R c × X (guard c)

variable {L : Type}

/-- What a thread has still to do. -/
inductive Thread (K : Guarded L) (α : Type) where
  | ret (a : α)
  | lock (ℓ : L) (next : Thread K α)
  | unlock (ℓ : L) (next : Thread K α)
  | call (c : K.Call) (next : K.R c → Thread K α)

variable {K : Guarded L} {α β : Type}

/-- One thread after another. -/
def Thread.bind (p : Thread K α) (f : α → Thread K β) : Thread K β :=
  match p with
  | .ret a => f a
  | .lock ℓ next => .lock ℓ (next.bind f)
  | .unlock ℓ next => .unlock ℓ (next.bind f)
  | .call c next => .call c fun r => (next r).bind f

instance : Monad (Thread K) where
  pure := .ret
  bind := Thread.bind

/-- The data. -/
abbrev Shared (K : Guarded L) := (ℓ : L) → K.X ℓ

/-- A thread that holds `held` touches only what that lock guards, asks for a lock only when it
holds none, and ends holding `held'`. -/
def Disciplined (held held' : Option L) : Thread K α → Prop
  | .ret _ => held = held'
  | .lock ℓ next => held = none ∧ Disciplined (some ℓ) held' next
  | .unlock ℓ next => held = some ℓ ∧ Disciplined none held' next
  | .call c next => held = some (K.guard c) ∧ ∀ r, Disciplined held held' (next r)

theorem Disciplined.bind {p : Thread K α} {f : α → Thread K β} {held held' held'' : Option L}
    (hp : Disciplined held held' p) (hf : ∀ a, Disciplined held' held'' (f a)) :
    Disciplined held held'' (p >>= f) := by
  induction p generalizing held with
  | ret a =>
    cases hp
    exact hf a
  | lock ℓ next ih => exact ⟨hp.1, ih hp.2⟩
  | unlock ℓ next ih => exact ⟨hp.1, ih hp.2⟩
  | call c next ih => exact ⟨hp.1, fun r => ih r (hp.2 r)⟩

section Critical
variable [DecidableEq L]

/-- What a thread does up to the next lock it gives back. -/
def critical : Thread K α → Shared K → Thread K α × Shared K
  | .ret a, s => (.ret a, s)
  | .lock ℓ next, s => (.lock ℓ next, s)
  | .unlock _ next, s => (next, s)
  | .call c next, s =>
    let r := K.perform c (s (K.guard c))
    critical (next r.1) (Function.update s (K.guard c) r.2)

/-- A disciplined stretch does not look at other data and leaves it as it is. -/
theorem critical_update {p : Thread K α} {ℓ ℓ' : L} {held' : Option L}
    (hp : Disciplined (some ℓ) held' p) (hne : ℓ' ≠ ℓ) (s : Shared K) (x : K.X ℓ') :
    critical p (Function.update s ℓ' x) =
      ((critical p s).1, Function.update (critical p s).2 ℓ' x) := by
  induction p generalizing s with
  | ret a => rfl
  | lock ℓ₁ next ih => rfl
  | unlock ℓ₁ next ih => rfl
  | call c next ih =>
    obtain ⟨hguard, hnext⟩ := hp
    have hne' : K.guard c ≠ ℓ' := by
      rw [← Option.some.inj hguard]
      exact hne.symm
    rw [critical, Function.update_of_ne hne', Function.update_comm hne'.symm]
    exact ih _ (hnext _) _

end Critical

/-! ## Runs -/

/-- The data, the threads, and who holds which lock. -/
structure System (K : Guarded L) (Tid α : Type) where
  shared : Shared K
  threads : Tid → Thread K α
  holder : L → Option Tid

/-- The data and the threads, when no thread is ever seen holding a lock. -/
structure Atomic (K : Guarded L) (Tid α : Type) where
  shared : Shared K
  threads : Tid → Thread K α

section Runs
variable {Tid : Type} [DecidableEq L] [DecidableEq Tid]

/-- One action of the thread `t`; it waits while somebody holds the lock it asks for. -/
def step (s : System K Tid α) (t : Tid) : System K Tid α :=
  match s.threads t with
  | .ret _ => s
  | .lock ℓ next =>
    match s.holder ℓ with
    | none =>
      { s with threads := Function.update s.threads t next
               holder := Function.update s.holder ℓ (some t) }
    | some _ => s
  | .unlock ℓ next =>
    { s with threads := Function.update s.threads t next
             holder := Function.update s.holder ℓ none }
  | .call c next =>
    let r := K.perform c (s.shared (K.guard c))
    { s with shared := Function.update s.shared (K.guard c) r.2
             threads := Function.update s.threads t (next r.1) }

/-- The next action of the thread `t` gives a lock back. -/
def releasing (s : System K Tid α) (t : Tid) : Bool :=
  match s.threads t with
  | .unlock _ _ => true
  | _ => false

/-- The threads that give a lock back in a run, each as often as it does and in that order. -/
def releases (s : System K Tid α) : List Tid → List Tid
  | [] => []
  | t :: schedule =>
    if releasing s t then t :: releases (step s t) schedule else releases (step s t) schedule

theorem releases_sublist (s : System K Tid α) (schedule : List Tid) :
    (releases s schedule).Sublist schedule := by
  induction schedule generalizing s with
  | nil => exact List.Sublist.refl _
  | cons t schedule ih =>
    rw [releases]
    split
    · exact (ih _).cons_cons t
    · exact (ih _).cons t

/-- One stretch of the thread `t`, from a lock to its release. -/
def atomic_step (a : Atomic K Tid α) (t : Tid) : Atomic K Tid α :=
  match a.threads t with
  | .lock _ next =>
    ⟨(critical next a.shared).2, Function.update a.threads t (critical next a.shared).1⟩
  | _ => a

theorem atomic_step_of_lock {a : Atomic K Tid α} {t : Tid} {ℓ : L} {next : Thread K α}
    (h : a.threads t = .lock ℓ next) :
    atomic_step a t =
      ⟨(critical next a.shared).2, Function.update a.threads t (critical next a.shared).1⟩ := by
  rw [atomic_step, h]

/-- Threads that start with no lock held. -/
def started (shared : Shared K) (threads : Tid → Thread K α) : System K Tid α :=
  ⟨shared, threads, fun _ => none⟩

/-- The thread asks for a lock that is held. -/
def Blocked (s : System K Tid α) (t : Tid) : Prop :=
  ∃ ℓ next, s.threads t = .lock ℓ next ∧ s.holder ℓ ≠ none

/-- The thread has nothing left to do. -/
def Ended (s : System K Tid α) (t : Tid) : Prop := ∃ a, s.threads t = .ret a

instance (s : System K Tid α) (t : Tid) : Decidable (Ended s t) :=
  match h : s.threads t with
  | .ret a => .isTrue ⟨a, h⟩
  | .lock _ _ => .isFalse fun ⟨_, hret⟩ => by cases h.symm.trans hret
  | .unlock _ _ => .isFalse fun ⟨_, hret⟩ => by cases h.symm.trans hret
  | .call _ _ => .isFalse fun ⟨_, hret⟩ => by cases h.symm.trans hret

/-- The two levels: a thread that holds a lock has, one level up, not yet begun the stretch it is
in, and what is left of the stretch leads where all of it would. -/
structure Simulated (s : System K Tid α) (a : Atomic K Tid α) : Prop where
  free : ∀ ℓ, s.holder ℓ = none → s.shared ℓ = a.shared ℓ
  outside : ∀ t, (∀ ℓ, s.holder ℓ ≠ some t) →
    s.threads t = a.threads t ∧ Disciplined none none (s.threads t)
  inside : ∀ t ℓ, s.holder ℓ = some t → Disciplined (some ℓ) none (s.threads t) ∧
    ∃ next, a.threads t = .lock ℓ next ∧ Disciplined (some ℓ) none next ∧
      critical next a.shared = critical (s.threads t) (Function.update a.shared ℓ (s.shared ℓ))

section Steps
variable {s : System K Tid α} {a : Atomic K Tid α} {t : Tid}

/-- A thread takes a lock that is free. -/
theorem Simulated.acquire (h : Simulated s a) {ℓ : L} {next : Thread K α}
    (ht : s.threads t = .lock ℓ next) (hfree : s.holder ℓ = none)
    (hout : ∀ ℓ', s.holder ℓ' ≠ some t) :
    Simulated { s with threads := Function.update s.threads t next
                       holder := Function.update s.holder ℓ (some t) } a where
  free ℓ' hℓ' := by
    replace hℓ' : Function.update s.holder ℓ (some t) ℓ' = none := hℓ'
    by_cases heq : ℓ' = ℓ
    · subst heq
      rw [Function.update_self] at hℓ'
      cases hℓ'
    · rw [Function.update_of_ne heq] at hℓ'
      exact h.free ℓ' hℓ'
  outside u hu := by
    have hne : u ≠ t := by
      rintro rfl
      exact hu ℓ (Function.update_self _ _ _)
    have hu' : ∀ ℓ', s.holder ℓ' ≠ some u := by
      intro ℓ' hℓ'
      by_cases heq : ℓ' = ℓ
      · rw [heq, hfree] at hℓ'
        cases hℓ'
      · exact hu ℓ' ((Function.update_of_ne heq _ _).trans hℓ')
    show Function.update s.threads t next u = _ ∧
      Disciplined none none (Function.update s.threads t next u)
    rw [Function.update_of_ne hne]
    exact h.outside u hu'
  inside u ℓ' hℓ' := by
    replace hℓ' : Function.update s.holder ℓ (some t) ℓ' = some u := hℓ'
    show Disciplined _ _ (Function.update s.threads t next u) ∧ ∃ next', _ ∧ _ ∧
      _ = critical (Function.update s.threads t next u) _
    by_cases heq : ℓ' = ℓ
    · subst heq
      have hu : t = u := by
        rw [Function.update_self] at hℓ'
        exact Option.some.inj hℓ'
      subst hu
      obtain ⟨hsame, hdis⟩ := h.outside t hout
      rw [ht] at hsame hdis
      rw [Function.update_self, h.free ℓ' hfree, Function.update_eq_self]
      exact ⟨hdis.2, next, hsame.symm, hdis.2, rfl⟩
    · rw [Function.update_of_ne heq] at hℓ'
      have hne : u ≠ t := by
        rintro rfl
        exact hout ℓ' hℓ'
      rw [Function.update_of_ne hne]
      exact h.inside u ℓ' hℓ'

/-- A thread calls on the data of the lock it holds. -/
theorem Simulated.call (h : Simulated s a) {c : K.Call} {next : K.R c → Thread K α}
    (ht : s.threads t = .call c next) (hheld : s.holder (K.guard c) = some t) :
    Simulated { s with
      shared := Function.update s.shared (K.guard c) (K.perform c (s.shared (K.guard c))).2
      threads := Function.update s.threads t (next (K.perform c (s.shared (K.guard c))).1) } a where
  free ℓ hℓ := by
    have hne : ℓ ≠ K.guard c := by
      rintro rfl
      rw [hheld] at hℓ
      cases hℓ
    show Function.update s.shared _ _ ℓ = _
    rw [Function.update_of_ne hne]
    exact h.free ℓ hℓ
  outside u hu := by
    have hne : u ≠ t := by
      rintro rfl
      exact hu _ hheld
    obtain ⟨hsame, hdis⟩ := h.outside u hu
    rw [← hsame]
    refine ⟨Function.update_of_ne hne _ _, ?_⟩
    show Disciplined none none (Function.update s.threads t _ u)
    rw [Function.update_of_ne hne]
    exact hdis
  inside u ℓ hℓ := by
    show Disciplined _ _ (Function.update s.threads t _ u) ∧ ∃ next', _ ∧ _ ∧
      _ = critical (Function.update s.threads t _ u)
        (Function.update _ _ (Function.update s.shared (K.guard c) _ ℓ))
    by_cases heq : ℓ = K.guard c
    · subst heq
      have hu : t = u := Option.some.inj (hheld.symm.trans hℓ)
      subst hu
      obtain ⟨hdis, next', hat, hdis', hrest⟩ := h.inside t _ hheld
      rw [ht] at hdis hrest
      rw [critical, Function.update_self, Function.update_idem] at hrest
      rw [Function.update_self, Function.update_self]
      exact ⟨hdis.2 _, next', hat, hdis', hrest⟩
    · have hne : u ≠ t := by
        rintro rfl
        obtain ⟨hdis, -⟩ := h.inside u ℓ hℓ
        rw [ht] at hdis
        exact heq (Option.some.inj hdis.1)
      rw [Function.update_of_ne hne, Function.update_of_ne heq]
      exact h.inside u ℓ hℓ

/-- A thread gives its lock back: one level up, this is the whole stretch. -/
theorem Simulated.release (h : Simulated s a) {ℓ : L} {next : Thread K α}
    (ht : s.threads t = .unlock ℓ next) (hheld : s.holder ℓ = some t) :
    Simulated { s with threads := Function.update s.threads t next
                       holder := Function.update s.holder ℓ none } (atomic_step a t) := by
  obtain ⟨hdis, begun, hat, -, hrest⟩ := h.inside t ℓ hheld
  rw [ht] at hdis hrest
  have hstep : atomic_step a t = ⟨Function.update a.shared ℓ (s.shared ℓ),
      Function.update a.threads t next⟩ := by
    rw [atomic_step_of_lock hat, hrest, critical]
  rw [hstep]
  refine ⟨fun ℓ' hℓ' => ?_, fun u hu => ?_, fun u ℓ' hℓ' => ?_⟩
  · show s.shared ℓ' = Function.update a.shared ℓ (s.shared ℓ) ℓ'
    by_cases heq : ℓ' = ℓ
    · subst heq
      rw [Function.update_self]
    · rw [Function.update_of_ne heq]
      exact h.free ℓ' ((Function.update_of_ne heq _ _).symm.trans hℓ')
  · show Function.update s.threads t next u = Function.update a.threads t next u ∧
      Disciplined none none (Function.update s.threads t next u)
    by_cases hne : u = t
    · subst hne
      rw [Function.update_self, Function.update_self]
      exact ⟨rfl, hdis.2⟩
    · have hu' : ∀ ℓ', s.holder ℓ' ≠ some u := by
        intro ℓ' hℓ'
        by_cases heq : ℓ' = ℓ
        · rw [heq, hheld] at hℓ'
          exact hne (Option.some.inj hℓ').symm
        · exact hu ℓ' ((Function.update_of_ne heq _ _).trans hℓ')
      rw [Function.update_of_ne hne, Function.update_of_ne hne]
      exact h.outside u hu'
  · have heq : ℓ' ≠ ℓ := by
      rintro rfl
      have hnone : Function.update s.holder ℓ' none ℓ' = some u := hℓ'
      rw [Function.update_self] at hnone
      cases hnone
    have hℓ' : s.holder ℓ' = some u := (Function.update_of_ne heq _ _).symm.trans hℓ'
    obtain ⟨hdis', begun', hat', hbegun', hrest'⟩ := h.inside u ℓ' hℓ'
    have hne : u ≠ t := by
      rintro rfl
      rw [ht] at hdis'
      exact heq (Option.some.inj hdis'.1)
    show Disciplined _ _ (Function.update s.threads t next u) ∧ ∃ next',
      Function.update a.threads t next u = _ ∧ _ ∧
        critical next' (Function.update a.shared ℓ (s.shared ℓ)) =
          critical (Function.update s.threads t next u)
            (Function.update (Function.update a.shared ℓ (s.shared ℓ)) ℓ' (s.shared ℓ'))
    rw [Function.update_of_ne hne, Function.update_of_ne hne]
    refine ⟨hdis', begun', hat', hbegun', ?_⟩
    rw [critical_update hbegun' heq.symm, hrest', Function.update_comm heq.symm,
      critical_update hdis' heq.symm]

/-- **One action** that gives a lock back is a whole stretch one level up, any other is nothing. -/
theorem Simulated.step (h : Simulated s a) (t : Tid) :
    Simulated (step s t) (if releasing s t then atomic_step a t else a) := by
  by_cases hheld : ∃ ℓ, s.holder ℓ = some t
  · obtain ⟨ℓ, hheld⟩ := hheld
    obtain ⟨hdis, -⟩ := h.inside t ℓ hheld
    cases ht : s.threads t with
    | ret b =>
      rw [ht] at hdis
      cases hdis
    | lock ℓ' next =>
      rw [ht] at hdis
      cases hdis.1
    | unlock ℓ' next =>
      rw [ht] at hdis
      cases hdis.1
      rw [Mutex.step, releasing, ht]
      exact h.release ht hheld
    | call c next =>
      rw [ht] at hdis
      cases hdis.1
      rw [Mutex.step, releasing, ht]
      exact h.call ht hheld
  · have hout : ∀ ℓ, s.holder ℓ ≠ some t := fun ℓ hℓ => hheld ⟨ℓ, hℓ⟩
    obtain ⟨-, hdis⟩ := h.outside t hout
    cases ht : s.threads t with
    | ret b =>
      rw [Mutex.step, releasing, ht]
      exact h
    | lock ℓ next =>
      rw [Mutex.step, releasing, ht]
      cases hholder : s.holder ℓ with
      | none =>
        simp only [hholder]
        exact h.acquire ht hholder hout
      | some u =>
        simp only [hholder]
        exact h
    | unlock ℓ next =>
      rw [ht] at hdis
      cases hdis.1
    | call c next =>
      rw [ht] at hdis
      cases hdis.1

omit [DecidableEq Tid] in
/-- **Somebody can go on**, unless all have ended: who holds a lock does not wait. -/
theorem Simulated.progress (h : Simulated s a) (hleft : ∃ t, ¬ Ended s t) :
    ∃ t, ¬ Ended s t ∧ ¬ Blocked s t := by
  obtain ⟨t, ht⟩ := hleft
  by_cases hblocked : Blocked s t
  · obtain ⟨ℓ, next, -, hheld⟩ := hblocked
    obtain ⟨u, hu⟩ := Option.ne_none_iff_exists'.mp hheld
    obtain ⟨hdis, -⟩ := h.inside u ℓ hu
    refine ⟨u, ?_, ?_⟩
    · rintro ⟨b, hb⟩
      rw [hb] at hdis
      cases hdis
    · rintro ⟨ℓ', next', hlock, -⟩
      rw [hlock] at hdis
      cases hdis.1
  · exact ⟨t, ht, hblocked⟩

omit [DecidableEq Tid] in
/-- When all have ended the two levels agree. -/
theorem Simulated.ended (h : Simulated s a) (hended : ∀ t, Ended s t) :
    s.shared = a.shared ∧ s.threads = a.threads := by
  have hfree : ∀ ℓ, s.holder ℓ = none := by
    intro ℓ
    cases hholder : s.holder ℓ with
    | none => rfl
    | some u =>
      obtain ⟨hdis, -⟩ := h.inside u ℓ hholder
      obtain ⟨b, hb⟩ := hended u
      rw [hb] at hdis
      cases hdis
  refine ⟨funext fun ℓ => h.free ℓ (hfree ℓ), funext fun t => (h.outside t fun ℓ hℓ => ?_).1⟩
  rw [hfree ℓ] at hℓ
  cases hℓ

end Steps

omit [DecidableEq Tid] in
theorem simulated_started {shared : Shared K} {threads : Tid → Thread K α}
    (h : ∀ t, Disciplined none none (threads t)) :
    Simulated (started shared threads) ⟨shared, threads⟩ where
  free _ _ := rfl
  outside t _ := ⟨rfl, h t⟩
  inside _ _ hℓ := by cases hℓ

/-- **A whole run** is, one level up, a run of whole stretches, in the order in which the threads
gave their locks back. -/
theorem run_simulated {s : System K Tid α} {a : Atomic K Tid α} (h : Simulated s a)
    (schedule : List Tid) :
    Simulated (schedule.foldl step s) ((releases s schedule).foldl atomic_step a) := by
  induction schedule generalizing s a with
  | nil => exact h
  | cons t schedule ih =>
    have hstep := h.step t
    rw [releases, List.foldl_cons]
    by_cases hrel : releasing s t = true
    · rw [if_pos hrel] at hstep ⊢
      exact ih hstep
    · rw [if_neg hrel] at hstep ⊢
      exact ih hstep

end Runs

end Mutex
