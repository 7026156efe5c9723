import Mathlib.GroupTheory.Perm.Cycle.Basic

/-! # Longer and shorter cycles

A swap of a point of a cycle with a fixed point makes the cycle longer by the latter.
Every longer cycle comes about in this way: a swap takes any of its points out again, and
what is left is a cycle.
-/
namespace Cycle
open Equiv Perm

section View
variable {α β : Type} {f : Perm α} {g : Perm β} {x y : α}

theorem sameCycle_pow (view : α → β) (hstep : ∀ x, g.SameCycle (view x) (view (f x))) (x : α)
    (n : Nat) : g.SameCycle (view x) (view ((f ^ n) x)) := by
  induction n with
  | zero => exact SameCycle.refl g _
  | succ n ih =>
    rw [pow_succ', mul_apply]
    exact ih.trans (hstep _)

/-- Related points are seen as related points when every step is seen as steps. -/
theorem sameCycle_view (view : α → β) (hstep : ∀ x, g.SameCycle (view x) (view (f x)))
    (h : f.SameCycle x y) : g.SameCycle (view x) (view y) := by
  obtain ⟨i, rfl⟩ := h
  obtain ⟨n, rfl | rfl⟩ := i.eq_nat_or_neg
  · rw [zpow_natCast]
    exact sameCycle_pow view hstep x n
  · have hback := sameCycle_pow view hstep ((f ^ (-(n : ℤ))) x) n
    rw [← mul_apply, ← zpow_natCast, ← zpow_add, Int.add_right_neg, zpow_zero, one_apply] at hback
    exact hback.symm

end View

section Swap
variable {α : Type} [DecidableEq α] {f : Perm α} {s : Set α} {j k : α}

/-- **A longer cycle.** -/
theorem isCycleOn_insert (hf : f.IsCycleOn s) (hj : j ∈ s) (hk : k ∉ s) (hfix : f k = k) :
    (swap j k * f).IsCycleOn (insert k s) := by
  have hjk : (swap j k * f).SameCycle j k := by
    refine SameCycle.symm ⟨1, ?_⟩
    rw [zpow_one, mul_apply, hfix, swap_apply_right]
  have hstep : ∀ x, (swap j k * f).SameCycle x (f x) := by
    intro x
    have hx : (swap j k * f).SameCycle x (swap j k (f x)) := ⟨1, rfl⟩
    rcases eq_or_ne (f x) j with he | hne
    · rw [he, swap_apply_left] at hx
      rw [he]
      exact hx.trans hjk.symm
    · rcases eq_or_ne (f x) k with he | hne'
      · rw [he, swap_apply_right] at hx
        rw [he]
        exact hx.trans hjk
      · rwa [swap_apply_of_ne_of_ne hne hne'] at hx
  have hall : ∀ x ∈ insert k s, (swap j k * f).SameCycle j x := by
    rintro x (rfl | hx)
    · exact hjk
    · exact sameCycle_view id hstep (hf.2 hj hx)
  refine ⟨?_, fun x hx y hy => (hall x hx).symm.trans (hall y hy)⟩
  have hinsert : Set.BijOn f (insert k s) (insert k s) := by
    have := hf.1.insert (a := k) (by rwa [hfix])
    rwa [hfix] at this
  exact (bijOn_swap (Set.mem_insert_of_mem _ hj) (Set.mem_insert _ _)).comp hinsert

/-- **A shorter cycle.** -/
theorem isCycleOn_erase (hf : f.IsCycleOn (insert k s)) (hk : k ∉ s) (hmove : f k ≠ k) :
    (swap (f k) k * f).IsCycleOn s := by
  -- the point taken out is seen as the one after it
  have hstep : ∀ x, (swap (f k) k * f).SameCycle (if x = k then f k else x)
      (if f x = k then f k else f x) := by
    intro x
    rcases eq_or_ne x k with rfl | hx
    · rw [if_pos rfl, if_neg hmove]
    · rw [if_neg hx]
      refine ⟨1, ?_⟩
      rw [zpow_one, mul_apply]
      rcases eq_or_ne (f x) k with he | hne
      · rw [if_pos he, he, swap_apply_right]
      · rw [if_neg hne, swap_apply_of_ne_of_ne (f.injective.ne hx) hne]
  have hne : ∀ x ∈ s, x ≠ k := fun x hx => ne_of_mem_of_not_mem hx hk
  refine ⟨?_, fun x hx y hy => ?_⟩
  · have hfix : (swap (f k) k * f) k = k := by rw [mul_apply, swap_apply_left]
    have hinsert : Set.BijOn (swap (f k) k * f) (insert k s) (insert k s) :=
      (bijOn_swap (hf.1.mapsTo (Set.mem_insert _ _)) (Set.mem_insert _ _)).comp hf.1
    rw [← Set.BijOn.insert_iff hk (by rwa [hfix]), hfix]
    exact hinsert
  · have := sameCycle_view (fun x => if x = k then f k else x) hstep
      (hf.2 (Set.mem_insert_of_mem _ hx) (Set.mem_insert_of_mem _ hy))
    rwa [if_neg (hne x hx), if_neg (hne y hy)] at this

end Swap

end Cycle
