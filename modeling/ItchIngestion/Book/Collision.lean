import ItchIngestion.Book.Aggregation

/-! # Colliding order ids

`insert` and `emplace` keep an order that is already live, but by then the shares of the new one are
on their level. `SumsAgree` is the exact agreement of levels and live orders; a colliding operation
that returns keeps it only where it brought no shares.
-/
namespace ItchIngestion.OB
open Library
set_option autoImplicit false

namespace OrderBook

/-! ## Quantities of the levels -/

/-- The quantity of a level, zero where none is stored. -/
def levelQty (b : Book) (S : Side) (p : UInt32) : ℕ := (b.view S p).elim 0 UInt64.toNat

/-- At every side and price the level holds the sum of the live orders. -/
def SumsAgree (b : Book) : Prop := ∀ S p, b.levelQty S p = liveQty b.ordersMap S.book p

theorem levelQty_lt (b : Book) (S : Side) (p : UInt32) : b.levelQty S p < 2 ^ 64 := by
  unfold levelQty
  cases b.view S p with
  | none => decide
  | some q => exact q.toNat_lt

section Levels
variable {b b' : Book} (h : b.WellFormed) {side : Side} {qty price : UInt32} {change : BestLvlChange}
include h

theorem levelQty_addLevel (hadd : b.addLevel side ⟨qty.toUInt64, price⟩ = .ok (change, b'))
    (S : Side) (p : UInt32) : b'.levelQty S p =
      if S.book = side.book ∧ p = price then (b.levelQty S p + qty.toNat) % 2 ^ 64
      else b.levelQty S p := by
  obtain ⟨-, hview, -⟩ := addLevel_ok h hadd
  unfold levelQty
  rw [hview]
  by_cases hS : S.book = side.book
  · rw [if_pos hS]
    by_cases hp : p = price
    · subst hp
      rw [LevelMap.add, Function.update_self, if_pos ⟨hS, rfl⟩]
      cases b.view S p <;> simp
    · rw [LevelMap.add, Function.update_of_ne hp, if_neg (fun e => hp e.2)]
  · rw [if_neg hS, if_neg (fun e => hS e.1)]

/-- An addition leaves all quantities alone only if it adds nothing. -/
theorem levelQty_addLevel_eq_iff (hadd : b.addLevel side ⟨qty.toUInt64, price⟩ = .ok (change, b')) :
    (∀ S p, b'.levelQty S p = b.levelQty S p) ↔ qty = 0 := by
  constructor
  · intro hsame
    have hlevel := levelQty_addLevel h hadd side price
    rw [hsame, if_pos ⟨rfl, rfl⟩] at hlevel
    have hlt := b.levelQty_lt side price
    have hqty := qty.toNat_lt
    have hz : qty.toNat = 0 := by omega
    exact UInt32.toNat_inj.mp hz
  · rintro rfl S p
    rw [levelQty_addLevel h hadd]
    split
    · exact Nat.mod_eq_of_lt (b.levelQty_lt S p)
    · rfl

theorem removeLevel_missing (hnone : b.view side price = none) :
    ∃ message, b.removeLevel side ⟨qty.toUInt64, price⟩ = .error (.unexpected message) := by
  rcases removeLevel_spec h side ⟨qty.toUInt64, price⟩ with ⟨fault, hm, hrem⟩ | ⟨_, _, m, -, -, hm, -⟩
  · obtain ⟨message, rfl⟩ := LevelMap.remove_error hm
    exact ⟨message, hrem⟩
  · simp only [LevelMap.remove, hnone] at hm
    cases hm

theorem removeLevel_stored (hsome : b.view side price ≠ none)
    (hle : qty.toNat ≤ b.levelQty side price) :
    ∃ change b', b.removeLevel side ⟨qty.toUInt64, price⟩ = .ok (change, b') ∧ b'.WellFormed ∧
      ∀ S p, b'.levelQty S p =
        if S.book = side.book ∧ p = price then b.levelQty S p - qty.toNat else b.levelQty S p := by
  obtain ⟨q, hq⟩ := Option.ne_none_iff_exists'.mp hsome
  have hqty : b.levelQty side price = q.toNat := by rw [levelQty, hq, Option.elim_some]
  have hle' : qty.toUInt64 ≤ q := by
    rw [UInt64.le_iff_toNat_le, UInt32.toNat_toUInt64, ← hqty]
    exact hle
  have hsub : (q - qty.toUInt64).toNat = q.toNat - qty.toNat := by
    rw [UInt64.toNat_sub_of_le _ _ hle', UInt32.toNat_toUInt64]
  rcases removeLevel_spec h side ⟨qty.toUInt64, price⟩ with ⟨fault, hm, -⟩ |
    ⟨change, b', m, hrem, hwf, hm, hview, -⟩
  · simp only [LevelMap.remove, hq, UInt64.not_lt.mpr hle', if_false] at hm
    cases hm
  · simp only [LevelMap.remove, hq, UInt64.not_lt.mpr hle', if_false, Except.ok.injEq] at hm
    refine ⟨change, b', hrem, hwf, fun S p => ?_⟩
    rw [levelQty, hview]
    by_cases hS : S.book = side.book
    · rw [if_pos hS, ← hm]
      by_cases hp : p = price
      · subst hp
        have hat : S.book = side.book ∧ p = p := ⟨hS, rfl⟩
        rw [Function.update_self, if_pos hat, levelQty, view_congr b hS, ← levelQty, hqty, ← hsub]
        by_cases hz : q - qty.toUInt64 = 0
        · rw [if_pos hz, hz]
          rfl
        · rw [if_neg hz, Option.elim_some]
      · rw [Function.update_of_ne hp, if_neg (fun e => hp e.2), levelQty, view_congr b hS]
    · rw [if_neg hS, if_neg (fun e => hS e.1), levelQty]

end Levels

/-! ## The two operations that bring an id -/

/-- What the operations owe their callers: they stop, or the sums agree again. -/
def StopsOrAgrees (result : Except Fault (BestLvlChange × Book)) : Prop :=
  (∃ message, result = .error (.unexpected message)) ∨
    ∃ change b', result = .ok (change, b') ∧ b'.SumsAgree

theorem stopsOrAgrees_ok {change : BestLvlChange} {b : Book} :
    StopsOrAgrees (.ok (change, b)) ↔ b.SumsAgree := by
  simp [StopsOrAgrees]

section Collision
variable {b : Book} (hwf : b.WellFormed) (h : b.SumsAgree) {k : UInt64} (hk : k ∈ b.ordersMap)
include hwf h hk

theorem addOrder_collides_iff (side : Side) (qty price : UInt32) :
    StopsOrAgrees (b.addOrder k side qty price) ↔ qty = 0 := by
  have hkeep : b.ordersMap.emplace k ⟨qty, price, side⟩ = b.ordersMap := if_pos hk
  obtain ⟨change, b', hadd, -⟩ := addLevel_spec hwf side ⟨qty.toUInt64, price⟩
  have hrun : b.addOrder k side qty price = .ok (change, b') := by
    rw [addOrder, hkeep]
    exact hadd
  rw [hrun, stopsOrAgrees_ok, ← levelQty_addLevel_eq_iff hwf hadd, SumsAgree, addLevel_orders hadd]
  exact forall₂_congr fun S p => by rw [h S p]

theorem replaceOrder_collides_iff {j : UInt64} (hjk : j ≠ k) {order : Order}
    (hj : b.ordersMap.lookup j = some order) (qty price : UInt32) :
    StopsOrAgrees (b.replaceOrder j k qty price) ↔
      qty = 0 ∨ b.view order.side order.price = none := by
  rw [replaceOrder_eq hj]
  by_cases hnone : b.view order.side order.price = none
  · obtain ⟨message, hrem⟩ := @removeLevel_missing b hwf order.side order.qty order.price hnone
    refine iff_of_true (Or.inl ⟨message, ?_⟩) (Or.inr hnone)
    rw [hrem, error_bind]
  · have hle : order.qty.toNat ≤ b.levelQty order.side order.price := by
      have hone : shares order.side.book order.price order ≤
          liveQty b.ordersMap order.side.book order.price := le_total hj _
      rw [shares, if_pos ⟨rfl, rfl⟩] at hone
      rw [h]
      exact hone
    obtain ⟨rem, b₁, hrem, hwf₁, hlevels⟩ := removeLevel_stored hwf hnone hle
    obtain ⟨add, b₂, hadd, -⟩ := addLevel_spec hwf₁ order.side ⟨qty.toUInt64, price⟩
    have hmem : k ∈ b.ordersMap.erase j := Finmap.mem_erase.mpr ⟨hjk.symm, hk⟩
    -- after the removal the sums agree with the map without `j`, which is the final one
    have hagree₁ : ∀ S p, b₁.levelQty S p = liveQty (b.ordersMap.erase j) S.book p := by
      intro S p
      have herase := liveQty_erase S.book p hj
      rw [shares] at herase
      rw [hlevels, h S p, ← herase]
      by_cases hat : order.side.book = S.book ∧ order.price = p
      · rw [if_pos hat, if_pos ⟨hat.1.symm, hat.2.symm⟩]
        omega
      · rw [if_neg hat, if_neg fun e => hat ⟨e.1.symm, e.2.symm⟩]
        omega
    rw [hrem, ok_bind, hadd, ok_bind, Orders.emplace, if_pos hmem, stopsOrAgrees_ok,
      or_iff_left hnone, ← levelQty_addLevel_eq_iff hwf₁ hadd]
    exact forall₂_congr fun S p => by rw [hagree₁ S p]; rfl

end Collision

/-- **When a colliding id leaves the sums in agreement.** -/
theorem collision_agrees_iff {b : Book} (hwf : b.WellFormed) (h : b.SumsAgree) {k : UInt64}
    (hk : k ∈ b.ordersMap) :
    (∀ side qty price, StopsOrAgrees (b.addOrder k side qty price) ↔ qty = 0) ∧
      ∀ j order qty price, j ≠ k → b.ordersMap.lookup j = some order →
        (StopsOrAgrees (b.replaceOrder j k qty price) ↔
          qty = 0 ∨ b.view order.side order.price = none) :=
  ⟨addOrder_collides_iff hwf h hk,
    fun _ _ qty price hjk hj => replaceOrder_collides_iff hwf h hk hjk hj qty price⟩

/-! ## A retransmitted order -/

theorem Aggregates.sumsAgree {b : Book} (h : b.Aggregates) : b.SumsAgree := by
  intro S p
  have hlt := liveQty_lt h.few.le S.book p
  rw [levelQty, h.shows S p]
  by_cases hz : liveQty b.ordersMap S.book p = 0
  · rw [levelOf, if_pos hz, hz]
    rfl
  · rw [levelOf, if_neg hz]
    exact UInt64.toNat_ofNat_of_lt' hlt

theorem one_bid : ∃ b : Book, run step empty [.addOrder 1 Side.Bid 5 10] = .ok b ∧
    b.Aggregates ∧ 1 ∈ b.ordersMap := by
  have hrun : FeedRun [.addOrder 1 Side.Bid 5 10] _ :=
    ⟨rfl, .cons rfl ⟨by decide, by decide⟩ .nil, .cons rfl (by decide) <| .nil (by decide)⟩
  exact ⟨_, hrun.run, hrun.aggregates, by decide⟩

theorem collision_corrupts : ∃ b : Book, run step empty [.addOrder 1 Side.Bid 5 10] = .ok b ∧
    b.SumsAgree ∧ 1 ∈ b.ordersMap ∧ ¬ StopsOrAgrees (b.addOrder 1 Side.Bid 3 9) := by
  obtain ⟨b, hrun, h, hk⟩ := one_bid
  refine ⟨b, hrun, h.sumsAgree, hk, ?_⟩
  rw [addOrder_collides_iff h.wf h.sumsAgree hk]
  decide

theorem collision_without_shares : ∃ b : Book, run step empty [.addOrder 1 Side.Bid 5 10] = .ok b ∧
    StopsOrAgrees (b.addOrder 1 Side.Bid 0 9) := by
  obtain ⟨b, hrun, h, hk⟩ := one_bid
  exact ⟨b, hrun, ((collision_agrees_iff h.wf h.sumsAgree hk).1 Side.Bid 0 9).mpr rfl⟩

end OrderBook

end ItchIngestion.OB
