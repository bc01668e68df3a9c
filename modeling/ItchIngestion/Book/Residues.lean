import ItchIngestion.Book.Aggregation

/-! # Levels under any number of orders

Without a bound on the number of live orders the sum over a level can pass `2 ^ 64`. The stored
quantity is then the sum modulo `2 ^ 64`, and as long as the sum fits it is the sum itself
(`Residue`). A level that has wrapped does not come back: a removal takes off at most what is
stored, so the multiples of `2 ^ 64` that were lost stay in the sum.
-/
namespace ItchIngestion.OB
open Library
set_option autoImplicit false

/-! ## One level -/

/-- The entry `v` of a level against the sum `n` of its orders. -/
structure Residue (n : ℕ) (v : Option UInt64) : Prop where
  wraps : ∃ k, n = 2 ^ 64 * k + (v.getD 0).toNat
  exact : n < 2 ^ 64 → v = levelOf n

namespace Residue
variable {n : ℕ} {v : Option UInt64} {q s : UInt64}

theorem zero : Residue 0 none := ⟨⟨0, rfl⟩, fun _ => rfl⟩

theorem add (h : Residue n v) (hq : 0 < q.toNat) :
    Residue (n + q.toNat) (some (v.getD 0 + q)) where
  wraps := by
    obtain ⟨k, hk⟩ := h.wraps
    refine ⟨k + ((v.getD 0).toNat + q.toNat) / 2 ^ 64, ?_⟩
    rw [Option.getD_some, UInt64.toNat_add]
    omega
  exact hlt := by
    have hv := h.exact (by omega)
    have hadd := congrFun (LevelMap.add_levelOf (t := fun _ => n) (p := 0) hq) 0
    rw [LevelMap.add, Function.update_self, if_pos rfl, ← hv] at hadd
    exact hadd

theorem remove (h : Residue n (some s)) (hq : q ≤ s) :
    Residue (n - q.toNat) (if s - q = 0 then none else some (s - q)) := by
  obtain ⟨k, hk⟩ := h.wraps
  rw [Option.getD_some] at hk
  have hsub : (s - q).toNat = s.toNat - q.toNat := UInt64.toNat_sub_of_le _ _ hq
  have hle : q.toNat ≤ s.toNat := UInt64.le_iff_toNat_le.mp hq
  have hvalue : ((if s - q = 0 then none else some (s - q) : Option UInt64).getD 0).toNat =
      s.toNat - q.toNat := by
    rw [← hsub]
    split
    · rename_i hz
      rw [hz]
      rfl
    · rfl
  refine ⟨⟨k, by rw [hvalue]; omega⟩, fun hlt => ?_⟩
  -- the multiples lost before are still in the sum, so there are none
  have hs := s.toNat_lt
  have hn : n = s.toNat := by omega
  rw [hn, ← hsub, levelOf]
  by_cases hz : s - q = 0
  · rw [if_pos hz, hz]
    rfl
  · have hnat : (s - q).toNat ≠ 0 := fun e => hz (UInt64.toNat_inj.mp e)
    rw [if_neg hz, if_neg hnat, UInt64.ofNat_toNat]

end Residue

/-! ## The two sides of a book -/

namespace OrderBook

/-- Every level is its sum modulo `2 ^ 64`, or is gone where that is zero. -/
def Residues (b : Book) (t : Side → UInt32 → ℕ) : Prop := ∀ S p, Residue (t S.book p) (b.view S p)

section Stores
variable {b b' : Book} {t : Side → UInt32 → ℕ} (h : b.WellFormed) (ht : Residues b t) {side : Side}
  {qty price : UInt32} {change : BestLvlChange}
include h ht

theorem addLevel_residues (hq : 0 < qty)
    (hadd : b.addLevel side ⟨qty.toUInt64, price⟩ = .ok (change, b')) :
    b'.WellFormed ∧ Residues b' fun S p => t S p + shares S p ⟨qty, price, side⟩ := by
  have hpos : 0 < qty.toUInt64.toNat := by simpa using UInt32.lt_iff_toNat_lt.mp hq
  refine ⟨(addLevel_ok h hadd).1, fun S p => ?_⟩
  dsimp only
  rw [addLevel_view h hadd, shares]
  by_cases hat : S.book = side.book ∧ p = price
  · obtain ⟨hS, rfl⟩ := hat
    rw [if_pos ⟨hS.symm, rfl⟩, if_pos ⟨hS, rfl⟩]
    exact (ht S p).add hpos
  · have hat' : ¬ (side.book = S.book ∧ price = p) := fun e => hat ⟨e.1.symm, e.2.symm⟩
    rw [if_neg hat, if_neg hat', Nat.add_zero]
    exact ht S p

theorem removeLevel_residues
    (hrem : b.removeLevel side ⟨qty.toUInt64, price⟩ = .ok (change, b')) :
    b'.WellFormed ∧ Residues b' fun S p => t S p - shares S p ⟨qty, price, side⟩ := by
  obtain ⟨s, hs, hle, hview⟩ := removeLevel_view h hrem
  refine ⟨(removeLevel_ok h hrem).1, fun S p => ?_⟩
  dsimp only
  rw [hview, shares]
  by_cases hat : S.book = side.book ∧ p = price
  · obtain ⟨hS, rfl⟩ := hat
    have hlevel := ht S p
    rw [view_congr b hS, hs] at hlevel
    have hnext := hlevel.remove hle
    rw [UInt32.toNat_toUInt64] at hnext
    rw [if_pos ⟨hS.symm, rfl⟩, if_pos ⟨hS, rfl⟩]
    exact hnext
  · have hat' : ¬ (side.book = S.book ∧ price = p) := fun e => hat ⟨e.1.symm, e.2.symm⟩
    rw [if_neg hat, if_neg hat', Nat.sub_zero]
    exact ht S p

end Stores

/-! ## Operations and runs -/

/-- The levels are the sums of the live orders modulo `2 ^ 64`. -/
structure Congruent (b : Book) : Prop where
  wf : b.WellFormed
  positive : Positive b.ordersMap
  residues : Residues b (liveQty b.ordersMap)

theorem empty_congruent : Congruent empty where
  wf := empty_wellFormed
  positive := empty_tallies.positive
  residues S p := by
    rw [empty_tallies.shows]
    exact Residue.zero

theorem Congruent.view_eq {b : Book} (h : b.Congruent) {S : Side} {p : UInt32}
    (hlt : liveQty b.ordersMap S.book p < 2 ^ 64) :
    b.view S p = levelOf (liveQty b.ordersMap S.book p) := (h.residues S p).exact hlt

theorem congruent_of {b : Book} {m : Orders} {t : Side → UInt32 → ℕ} (hwf : b.WellFormed)
    (hpos : Positive m) (ht : Residues b t) (heq : ∀ S p, t S p = liveQty m S p) :
    Congruent { b with ordersMap := m } where
  wf := ⟨hwf.bid, hwf.ask⟩
  positive := hpos
  residues S p := by
    have hlevel := ht S p
    rw [heq] at hlevel
    exact hlevel

section Step
variable {b b' : Book} {change : BestLvlChange} (h : b.Congruent)
include h

theorem reduceOrder_congruent {notFound tooMuch : String} {orderId : UInt64} {qty : UInt32}
    (happly : reduceOrder notFound tooMuch b orderId qty = .ok (change, b')) : b'.Congruent := by
  obtain ⟨order, b₁, hfind, hq, hrem, rfl⟩ := reduceOrder_ok happly
  obtain ⟨hwf, hres⟩ := removeLevel_residues h.wf h.residues hrem
  refine congruent_of hwf h.positive.reduce hres fun S p => ?_
  have := liveQty_reduce S p hfind hq
  omega

/-- **Whatever returns keeps the levels congruent to the live orders.** -/
theorem apply_congruent {op : Op} (hfeed : op.Feed b.ordersMap)
    (happly : b.apply op = .ok (change, b')) : b'.Congruent := by
  cases op with
  | addOrder orderId side qty price =>
    have hwf : WellFormed { b with ordersMap := b.ordersMap.emplace orderId ⟨qty, price, side⟩ } :=
      ⟨h.wf.bid, h.wf.ask⟩
    obtain ⟨hwf', hres⟩ := addLevel_residues hwf h.residues hfeed.1 happly
    have horders : b'.ordersMap = b.ordersMap.emplace orderId ⟨qty, price, side⟩ :=
      addLevel_orders happly
    refine congruent_of hwf' ?_ hres fun S p => ?_
    · rw [horders]
      exact h.positive.emplace hfeed.1
    · rw [horders, liveQty_emplace S p hfeed.2]
  | cancelOrder orderId qty => exact reduceOrder_congruent h happly
  | executeOrder orderId qty => exact reduceOrder_congruent h happly
  | replaceOrder orderId newOrderId qty price =>
    obtain ⟨order, rem, b₁, add, b₂, hfind, hrem, hadd, -, rfl⟩ := replaceOrder_ok happly
    obtain ⟨hwf₁, hres₁⟩ := removeLevel_residues h.wf h.residues hrem
    obtain ⟨hwf₂, hres₂⟩ := addLevel_residues hwf₁ hres₁ hfeed.1 hadd
    have hfresh : newOrderId ∉ b.ordersMap.erase orderId := by
      rw [Finmap.mem_erase, not_and]
      intro hne
      exact hfeed.2.resolve_right hne
    refine congruent_of hwf₂ (h.positive.erase.emplace hfeed.1) hres₂ fun S p => ?_
    have herase : liveQty (b.ordersMap.erase orderId) S p +
        shares S p ⟨order.qty, order.price, order.side⟩ = liveQty b.ordersMap S p :=
      liveQty_erase S p hfind
    rw [liveQty_emplace S p hfresh]
    omega
  | deleteOrder orderId =>
    obtain ⟨order, b₁, hfind, hrem, rfl⟩ := deleteOrder_ok happly
    obtain ⟨hwf, hres⟩ := removeLevel_residues h.wf h.residues hrem
    refine congruent_of hwf h.positive.erase hres fun S p => ?_
    have herase : liveQty (b.ordersMap.erase orderId) S p +
        shares S p ⟨order.qty, order.price, order.side⟩ = liveQty b.ordersMap S p :=
      liveQty_erase S p hfind
    omega

end Step

/-- A run of valid operations, of any number of live orders. -/
structure UnboundedRun (ops : List Op) (b : Book) : Prop where
  run : run step empty ops = .ok b
  valid : Along step (fun b op => op.Valid b.ordersMap) (empty : Book) ops

theorem UnboundedRun.congruent {ops : List Op} {b : Book} (h : UnboundedRun ops b) :
    b.Congruent := by
  refine run_induction (Q := fun _ => True) (fun _ b => b.Congruent) empty_congruent ?_ h.valid
    (fun _ _ _ _ _ => trivial) h.run
  intro _ b op b' hinv hvalid _ hstep
  obtain ⟨change, happly⟩ := step_ok hstep
  exact apply_congruent hinv hvalid.1 happly

end OrderBook

end ItchIngestion.OB
