import ItchIngestion.Levels.VectorLevelBSearchSplit

/-! # What a removal undoes

Two removals at one price are one removal of the sum, and a removal after an addition of the same
quantity gives the vectors back. Both hold of the returned changes as well: the position of a level
decides what is reported, and the two calls find the level at the same position. The one case that
does not invert is an insertion directly behind the best level: `add` reports there although the
best level stays, `remove` does not.
-/
namespace ItchIngestion.OB
open Library
set_option autoImplicit false

namespace VectorLevelBSearchSplit
variable {S : Side} {l l₁ : VectorLevelBSearchSplit S} {p : UInt32}

/-- The price is new, and exactly one level is better. -/
def BehindBest (l : VectorLevelBSearchSplit S) (p : UInt32) : Prop :=
  ∃ A x, l.prices = A ++ [x] ∧ (∀ a ∈ A, S.Worse a p) ∧ S.Worse p x

theorem not_behindBest_of_mem (hmem : p ∈ l.prices) : ¬ l.BehindBest p := by
  rintro ⟨A, x, hprices, hA, hx⟩
  rw [hprices] at hmem
  cases List.mem_append.mp hmem with
  | inl hp => exact irrefl_of S.Worse p (hA p hp)
  | inr hp => exact irrefl_of S.Worse p (List.mem_singleton.mp hp ▸ hx)

theorem not_behindBest_of_best (hbest : ∀ a ∈ l.prices, S.Worse a p) : ¬ l.BehindBest p := by
  rintro ⟨A, x, hprices, -, hx⟩
  have hmem : x ∈ l.prices := by
    rw [hprices]
    exact List.mem_append_right A (List.mem_singleton_self x)
  exact asymm_of S.Worse hx (hbest x hmem)

/-- **Removing in two portions.** -/
theorem remove_remove (h : l.WellFormed) {a b : UInt64} {change : BestLvlChange} (hb : 0 < b)
    (hab : a.toNat + b.toNat < 2 ^ 64) (hrem : l.remove ⟨a, p⟩ = .ok (change, l₁))
    (r : BestLvlChange × VectorLevelBSearchSplit S) :
    l₁.remove ⟨b, p⟩ = .ok r ↔ l.remove ⟨a + b, p⟩ = .ok r := by
  obtain ⟨prices, qtys⟩ := l
  obtain ⟨hs, hlen⟩ := h
  dsimp only at hs hlen
  have hbn : 0 < b.toNat := UInt64.lt_iff_toNat_lt.mp hb
  have hsum : (a + b).toNat = a.toNat + b.toNat := by
    rw [UInt64.toNat_add, Nat.mod_eq_of_lt hab]
  cases locate hs hlen p with
  | absent A B QA QB hl hr hA hB =>
    rw [remove_absent a hA hB] at hrem
    cases hrem
  | found A B QA q QB hl hr hA hB =>
    by_cases hq : q < a
    · rw [remove_underflow hl hA hB hq] at hrem
      cases hrem
    rw [remove_found hl hr hA hB hq] at hrem
    cases hrem
    have hsub : (q - a).toNat = q.toNat - a.toNat :=
      UInt64.toNat_sub_of_le _ _ (UInt64.not_lt.mp hq)
    by_cases hz : q - a = 0
    · have hqa : q.toNat - a.toNat = 0 := by rw [← hsub, hz]; rfl
      have hover : q < a + b := by
        rw [UInt64.lt_iff_toNat_lt, hsum]
        omega
      rw [if_pos hz, remove_absent b hA hB, remove_underflow hl hA hB hover]
      exact iff_of_false (fun e => by cases e) (fun e => by cases e)
    · rw [if_neg hz]
      have hle : a.toNat ≤ q.toNat := UInt64.le_iff_toNat_le.mp (UInt64.not_lt.mp hq)
      have hiff : q - a < b ↔ q < a + b := by
        rw [UInt64.lt_iff_toNat_lt, UInt64.lt_iff_toNat_lt, hsub, hsum]
        omega
      by_cases hover : q < a + b
      · rw [remove_underflow hl hA hB (hiff.mpr hover), remove_underflow hl hA hB hover]
      · rw [remove_found hl hr hA hB (mt hiff.mp hover), remove_found hl hr hA hB hover,
          sub_sub]

/-- **Adding and removing.** The level that was there keeps a quantity, so it is not erased. -/
theorem remove_add (h : l.WellFormed) {qty : UInt64}
    (hfit : ∀ q, l.view p = some q → 0 < q ∧ q.toNat + qty.toNat < 2 ^ 64) :
    ∃ added l₁ removed, l.add ⟨qty, p⟩ = .ok (added, l₁) ∧ l₁.remove ⟨qty, p⟩ = .ok (removed, l) ∧
      (added.side ≠ Side.None →
        (l.BehindBest p → removed = BestLvlChange.none) ∧
          (¬ l.BehindBest p → removed = ⟨l.top.qty, l.top.price, S⟩)) := by
  obtain ⟨prices, qtys⟩ := l
  obtain ⟨hs, hlen⟩ := h
  dsimp only at hs hlen
  cases locate hs hlen p with
  | found A B QA q QB hl hr hA hB =>
    have hview : view (⟨A ++ p :: B, QA ++ q :: QB⟩ : VectorLevelBSearchSplit S) p = some q := by
      rw [view, find_middle q hl (notMem_before hA), Function.update_self]
    obtain ⟨hq, hsum⟩ := hfit q hview
    have hadd : (q + qty).toNat = q.toNat + qty.toNat := by
      rw [UInt64.toNat_add, Nat.mod_eq_of_lt hsum]
    have hover : ¬ q + qty < qty := by
      rw [UInt64.lt_iff_toNat_lt, hadd]
      omega
    have hback : q + qty - qty = q := UInt64.add_sub_cancel ..
    have hnz : q ≠ 0 := UInt64.pos_iff_ne_zero.mp hq
    have hrem := remove_found hl hr hA hB hover
    rw [hback, if_neg hnz] at hrem
    refine ⟨_, _, _, add_found q qty hl hr hA hB, hrem, fun hside => ?_⟩
    have hB' : B = [] := by
      by_contra hB'
      rw [if_neg hB'] at hside
      exact hside rfl
    have hmem : p ∈ A ++ p :: B := List.mem_append_right A List.mem_cons_self
    exact ⟨fun hbehind => absurd hbehind (not_behindBest_of_mem hmem), fun _ => if_pos hB'⟩
  | absent A B QA QB hl hr hA hB =>
    have hover : ¬ qty < qty := by simp
    have hrem := remove_found (q := qty) hl hr hA hB hover
    rw [UInt64.sub_self, if_pos rfl] at hrem
    refine ⟨_, _, _, add_absent qty hl hr hA hB, hrem, fun hside => ?_⟩
    have hB' : B.length ≤ 1 := by
      by_contra hB'
      rw [if_neg hB'] at hside
      exact hside rfl
    cases B with
    | nil =>
      have hbest : ∀ a ∈ A ++ [], S.Worse a p := by
        rw [List.append_nil]
        exact hA
      exact ⟨fun hbehind => absurd hbehind (not_behindBest_of_best hbest), fun _ => rfl⟩
    | cons x B =>
      obtain rfl : B = [] := by
        rw [← List.length_eq_zero_iff]
        rw [List.length_cons] at hB'
        omega
      have hbehind : BehindBest (⟨A ++ [x], QA ++ QB⟩ : VectorLevelBSearchSplit S) p :=
        ⟨A, x, rfl, hA, hB x (List.mem_singleton_self x)⟩
      exact ⟨fun _ => rfl, fun hnot => absurd hbehind hnot⟩

end VectorLevelBSearchSplit

end ItchIngestion.OB
