import Mathlib.Logic.Relation
import Mathlib.Data.Set.Insert

/-! # Flooding a directed graph

A node that learns an item passes it along every edge; items on their way arrive in
any order, and one that arrives where it is known is dropped.  `Covers` is the
invariant that carries the argument: every neighbour of an informed node is informed
or about to be.  When nothing is on its way, it says that whatever a node knows is
known to all nodes it can reach.
-/
namespace Flood
variable {V M : Type*}

/-- Who knows what, and what is on its way to whom. -/
structure State (V M : Type*) where
  informed : V → Set M
  pending : Set (V × M)

variable (E : V → V → Prop)

/-- A step of the flood.  One arrival may leave the item pending, since it may be on
its way to a node more than once. -/
inductive Step (f g : State V M) : Prop where
  /-- A node learns an item, its own or one that was on its way to it, and passes it on. -/
  | learn (u : V) (m : M) (learnt : ∀ v x, x ∈ g.informed v ↔ x ∈ f.informed v ∨ v = u ∧ x = m)
      (sent : ∀ v, E u v → (v, m) ∈ g.pending)
      (kept : ∀ p ∈ f.pending, p ≠ (u, m) → p ∈ g.pending)
  /-- An item arrives where it is known. -/
  | drop (u : V) (m : M) (known : m ∈ f.informed u)
      (same : ∀ v x, x ∈ g.informed v ↔ x ∈ f.informed v)
      (kept : ∀ p ∈ f.pending, p ≠ (u, m) → p ∈ g.pending)

/-- Every neighbour of an informed node is informed, or the item is on its way to it. -/
def Covers (f : State V M) : Prop :=
  ∀ u m, m ∈ f.informed u → ∀ v, E u v → m ∈ f.informed v ∨ (v, m) ∈ f.pending

variable {E}

/-- **Every step keeps the invariant.** -/
theorem Covers.step {f g : State V M} (h : Covers E f) (hs : Step E f g) : Covers E g := by
  intro u m hm v hv
  cases hs with
  | learn u' m' learnt sent kept =>
    have hold : ∀ x, x ∈ f.informed v → x ∈ g.informed v := fun x hx => (learnt v x).mpr (Or.inl hx)
    rcases (learnt u m).mp hm with hf | ⟨rfl, rfl⟩
    · rcases h u m hf v hv with hknown | hpending
      · exact Or.inl (hold m hknown)
      · by_cases he : (v, m) = (u', m')
        · cases he
          exact Or.inl ((learnt v m).mpr (Or.inr ⟨rfl, rfl⟩))
        · exact Or.inr (kept _ hpending he)
    · exact Or.inr (sent v hv)
  | drop u' m' known same kept =>
    rcases h u m ((same u m).mp hm) v hv with hknown | hpending
    · exact Or.inl ((same v m).mpr hknown)
    · by_cases he : (v, m) = (u', m')
      · cases he
        exact Or.inl ((same v m).mpr known)
      · exact Or.inr (kept _ hpending he)

/-- **Coverage.**  When nothing is on its way, knowledge has spread along every path. -/
theorem Covers.reaches {f : State V M} (h : Covers E f) (hquiet : f.pending = ∅) {u v : V}
    (hr : Relation.ReflTransGen E u v) {m : M} (hm : m ∈ f.informed u) : m ∈ f.informed v := by
  induction hr with
  | refl => exact hm
  | tail _ hedge ih =>
    rcases h _ m ih _ hedge with hknown | hpending
    · exact hknown
    · rw [hquiet] at hpending
      cases hpending

end Flood
