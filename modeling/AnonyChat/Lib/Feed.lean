import Mathlib.Data.List.Induction
import Mathlib.Logic.Function.Basic

/-! # A feed of views

A publisher makes a view for each of its subscribers, which take what is published for them
one view after the other, whenever they like.  Nothing is lost, taken twice or out of order
(`published_eq`), so a subscriber with nothing left to take has the latest view there is
(`latest_of_drained`).
-/
namespace Feed
variable {N V : Type*}

/-- What each subscriber has taken so far, and what is on its way to it. -/
structure State (N V : Type*) where
  taken : N → List V
  queue : N → List V

/-- A view is published for some of the subscribers, or one of them takes a view. -/
inductive Op (N V : Type*) where
  | publish (view : N → Option V)
  | take (n : N)

/-- Nothing is published. -/
def init : State N V := ⟨fun _ => [], fun _ => []⟩

/-- The view a subscriber goes by. -/
def State.current (s : State N V) (n : N) : Option V := (s.taken n).getLast?

/-- The views published for a subscriber, in order. -/
def published (n : N) (ops : List (Op N V)) : List V :=
  ops.filterMap fun
    | .publish view => view n
    | .take _ => none

theorem published_append (n : N) (ops ops' : List (Op N V)) :
    published n (ops ++ ops') = published n ops ++ published n ops' :=
  List.filterMap_append

theorem published_publish (n : N) (view : N → Option V) :
    published n [Op.publish view] = (view n).toList := by
  cases hview : view n <;> simp [published, hview]

variable [DecidableEq N]

/-- One step. -/
def step (s : State N V) : Op N V → State N V
  | .publish view => { s with queue := fun n => s.queue n ++ (view n).toList }
  | .take n =>
    match s.queue n with
    | [] => s
    | v :: rest =>
      ⟨Function.update s.taken n (s.taken n ++ [v]), Function.update s.queue n rest⟩

/-- A run. -/
def run (s : State N V) (ops : List (Op N V)) : State N V := ops.foldl step s

theorem run_append (s : State N V) (ops ops' : List (Op N V)) :
    run s (ops ++ ops') = run (run s ops) ops' :=
  List.foldl_append

/-- Taking moves the first view of a queue. -/
theorem step_take_of_cons {s : State N V} {n : N} {v : V} {rest : List V}
    (h : s.queue n = v :: rest) :
    step s (.take n) =
      ⟨Function.update s.taken n (s.taken n ++ [v]), Function.update s.queue n rest⟩ := by
  rw [step, h]

/-- One step adds to what was published for a subscriber and keeps the order. -/
theorem step_stream (s : State N V) (op : Op N V) (n : N) :
    (step s op).taken n ++ (step s op).queue n = s.taken n ++ s.queue n ++ published n [op] := by
  cases op with
  | publish view =>
    rw [published_publish, List.append_assoc]
    rfl
  | take m =>
    rw [show published n [Op.take m] = [] from rfl, List.append_nil]
    cases hqueue : s.queue m with
    | nil => rw [step, hqueue]
    | cons v rest =>
      rw [step_take_of_cons hqueue]
      by_cases hn : n = m
      · subst hn
        simp [hqueue]
      · simp [hn]

/-- **No view is lost, taken twice or out of order.** -/
theorem published_eq (ops : List (Op N V)) (n : N) :
    published n ops = (run init ops).taken n ++ (run init ops).queue n := by
  induction ops using List.reverseRecOn with
  | nil => rfl
  | append_singleton ops op ih =>
    rw [run_append, show run (run init ops) [op] = step (run init ops) op from rfl, step_stream,
      ← ih, published_append]

/-- A subscriber that has taken everything has the latest view. -/
theorem latest_of_drained {ops : List (Op N V)} {n : N} (h : (run init ops).queue n = []) :
    (run init ops).current n = (published n ops).getLast? := by
  rw [published_eq, h, List.append_nil]
  rfl

/-- What was published last reaches everyone it is for. -/
theorem current_of_last {before after : List (Op N V)} {view : N → Option V} {n : N} {v : V}
    (hview : view n = some v) (hquiet : ∀ op ∈ after, ∃ m, op = .take m)
    (h : (run init (before ++ .publish view :: after)).queue n = []) :
    (run init (before ++ .publish view :: after)).current n = some v := by
  have hnone : published n after = [] := by
    refine List.filterMap_eq_nil_iff.mpr fun op hop => ?_
    obtain ⟨m, rfl⟩ := hquiet op hop
    rfl
  rw [latest_of_drained h, ← List.singleton_append, published_append, published_append, hnone,
    published_publish, hview]
  simp

end Feed
