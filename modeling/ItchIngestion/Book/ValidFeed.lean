import ItchIngestion.Book.Aggregation

/-! # A valid feed never aborts the book

Only the checks on orders are visible in `Op.Valid`. The checks inside the level stores, and the
absence of wrap-around in every `-=` and `+=` on a quantity (`NoWrap`), come from the aggregation:
the level of a live order exists and holds at least what remains of the order.
-/
namespace ItchIngestion.OB
open Library
set_option autoImplicit false

/-! ## The arithmetic of the operations -/

namespace VectorLevelBSearchSplit
variable {S : Side}

/-- `qtys[idx] -= level.qty` does not wrap where `remove` reaches it. -/
def RemoveExact (l : VectorLevelBSearchSplit S) (level : Level) : Prop :=
  let idx := lowerBound l.prices (fun lhs => decide (S.Worse lhs level.price))
  ∀ qty, l.prices[idx]? = some level.price → l.qtys[idx]? = some qty → level.qty ≤ qty

/-- `qtys[idx] += level.qty` does not wrap where `add` reaches it. -/
def AddExact (l : VectorLevelBSearchSplit S) (level : Level) : Prop :=
  let idx := lowerBound l.prices (fun lhs => decide (S.Worse lhs level.price))
  ∀ qty : UInt64, l.prices[idx]? = some level.price → l.qtys[idx]? = some qty →
    qty.toNat + level.qty.toNat < 2 ^ 64

variable {l : VectorLevelBSearchSplit S} {level : Level} (hwf : l.WellFormed)
include hwf

theorem removeExact_of_view (h : ∀ qty, l.view level.price = some qty → level.qty ≤ qty) :
    l.RemoveExact level :=
  fun qty hp hq => h qty (find_getElem hwf.sorted.nodup hp hq)

theorem addExact_of_view
    (h : ∀ qty, l.view level.price = some qty → qty.toNat + level.qty.toNat < 2 ^ 64) :
    l.AddExact level :=
  fun qty hp hq => h qty (find_getElem hwf.sorted.nodup hp hq)

end VectorLevelBSearchSplit

namespace OrderBook

/-- The level has at least the quantity that is removed from it. -/
def RemoveExact (b : Book) (side : Side) (level : Level) : Prop :=
  if side = Side.Bid then b.bidLevels.RemoveExact level else b.askLevels.RemoveExact level

/-- The level has room for the quantity that is added to it. -/
def AddExact (b : Book) (side : Side) (level : Level) : Prop :=
  if side = Side.Bid then b.bidLevels.AddExact level else b.askLevels.AddExact level

/-- No subtraction and no addition of a quantity made by the operation wraps. -/
def NoWrap (b : Book) : Op → Prop
  | .addOrder _ side qty price => b.AddExact side ⟨qty.toUInt64, price⟩
  | .cancelOrder orderId qty | .executeOrder orderId qty =>
    ∀ order, b.ordersMap.lookup orderId = some order →
      b.RemoveExact order.side ⟨qty.toUInt64, order.price⟩ ∧ qty ≤ order.qty
  | .replaceOrder orderId _ qty price =>
    ∀ order, b.ordersMap.lookup orderId = some order →
      b.RemoveExact order.side ⟨order.qty.toUInt64, order.price⟩ ∧
        ∀ change b', b.removeLevel order.side ⟨order.qty.toUInt64, order.price⟩ = .ok (change, b') →
          AddExact b' order.side ⟨qty.toUInt64, price⟩
  | .deleteOrder orderId =>
    ∀ order, b.ordersMap.lookup orderId = some order →
      b.RemoveExact order.side ⟨order.qty.toUInt64, order.price⟩

section Exact
variable {b : Book} {t : Side → UInt32 → ℕ} {side : Side} {qty price : UInt32}
  (hwf : b.WellFormed) (ht : Shows b t) (hb : t side.book price < 2 ^ 64)
include hwf ht hb

theorem removeExact_shows (hq : qty.toNat ≤ t side.book price) :
    b.RemoveExact side ⟨qty.toUInt64, price⟩ := by
  have hle : ∀ q, b.view side price = some q → qty.toUInt64 ≤ q := by
    intro q h
    rw [ht] at h
    rw [UInt64.le_iff_toNat_le, levelOf_eq_some hb h]
    simpa using hq
  unfold RemoveExact
  unfold view at hle
  split
  · rename_i hside
    rw [if_pos hside] at hle
    exact VectorLevelBSearchSplit.removeExact_of_view hwf.bid hle
  · rename_i hside
    rw [if_neg hside] at hle
    exact VectorLevelBSearchSplit.removeExact_of_view hwf.ask hle

theorem addExact_shows (hq : t side.book price + qty.toNat < 2 ^ 64) :
    b.AddExact side ⟨qty.toUInt64, price⟩ := by
  have hlt : ∀ q, b.view side price = some q → q.toNat + qty.toUInt64.toNat < 2 ^ 64 := by
    intro q h
    rw [ht] at h
    rw [levelOf_eq_some hb h]
    simpa using hq
  unfold AddExact
  unfold view at hlt
  split
  · rename_i hside
    rw [if_pos hside] at hlt
    exact VectorLevelBSearchSplit.addExact_of_view hwf.bid hlt
  · rename_i hside
    rw [if_neg hside] at hlt
    exact VectorLevelBSearchSplit.addExact_of_view hwf.ask hlt

end Exact

section Step
variable {b : Book} (h : b.Aggregates)
include h

theorem Aggregates.removeExact {id : UInt64} {o : Order} (hfind : b.ordersMap.lookup id = some o)
    {qty : UInt32} (hq : qty ≤ o.qty) : b.RemoveExact o.side ⟨qty.toUInt64, o.price⟩ := by
  obtain ⟨-, hle⟩ := h.tallies.le_liveQty hfind
  have hqn : qty.toNat ≤ o.qty.toNat := UInt32.le_iff_toNat_le.mp hq
  exact removeExact_shows h.wf h.shows (liveQty_lt h.few.le _ _) (by omega)

/-- The replaced order makes room for the new one: the count of orders stays. -/
theorem Aggregates.addExact_replaced {orderId : UInt64} {order : Order}
    (hfind : b.ordersMap.lookup orderId = some order) {change : BestLvlChange} {b' : Book}
    (hrem : b.removeLevel order.side ⟨order.qty.toUInt64, order.price⟩ = .ok (change, b'))
    (qty price : UInt32) : b'.AddExact order.side ⟨qty.toUInt64, price⟩ := by
  obtain ⟨c, b₁, hrem', hwf₁, hshows₁⟩ := h.tallies.removeLevel hfind (liveQty_lt h.few.le _ _)
    (UInt32.le_refl _)
  rw [hrem] at hrem'
  cases hrem'
  have hsize := size_erase hfind
  have hfresh : orderId ∉ b.ordersMap.erase orderId := Finmap.notMem_erase_self
  have hfew : size (Orders.emplace (b.ordersMap.erase orderId) orderId ⟨qty, price, order.side⟩) <
      2 ^ 32 := by
    rw [Orders.emplace, if_neg hfresh, size_insert hfresh, ← hsize]
    exact h.few
  have hlt := liveQty_lt hfew.le order.side.book price
  have herase : liveQty (b.ordersMap.erase orderId) order.side.book price +
      shares order.side.book price ⟨order.qty, order.price, order.side⟩ =
      liveQty b.ordersMap order.side.book price := liveQty_erase _ _ hfind
  rw [liveQty_emplace _ _ hfresh] at hlt
  have hadd : shares order.side.book price ⟨qty, price, order.side⟩ = qty.toNat :=
    if_pos ⟨rfl, rfl⟩
  exact addExact_shows hwf₁ hshows₁ (by omega) (by omega)

/-- The bound on the number of orders is needed after the operation: an addition makes one more. -/
theorem noWrap_valid {op : Op} (hvalid : op.Valid b.ordersMap)
    (hfew : ∀ change b', b.apply op = .ok (change, b') → size b'.ordersMap < 2 ^ 32) :
    b.NoWrap op := by
  obtain ⟨hfeed, href⟩ := hvalid
  cases op with
  | addOrder orderId side qty price =>
    obtain ⟨change, b', happly, -⟩ := addOrder_valid h.tallies side price hfeed.1 hfeed.2
    have hsize := hfew change b' happly
    rw [addOrder_ok happly] at hsize
    have hlt := liveQty_lt hsize.le side.book price
    rw [liveQty_emplace _ _ hfeed.2, shares, if_pos ⟨rfl, rfl⟩] at hlt
    exact addExact_shows h.wf h.shows (by omega) hlt
  | cancelOrder orderId qty =>
    intro order hfind
    obtain ⟨o, hfind', hq⟩ := href
    rw [hfind] at hfind'
    cases hfind'
    exact ⟨h.removeExact hfind hq, hq⟩
  | executeOrder orderId qty =>
    intro order hfind
    obtain ⟨o, hfind', hq⟩ := href
    rw [hfind] at hfind'
    cases hfind'
    exact ⟨h.removeExact hfind hq, hq⟩
  | replaceOrder orderId newOrderId qty price =>
    intro order hfind
    exact ⟨h.removeExact hfind (UInt32.le_refl _),
      fun _ _ hrem => h.addExact_replaced hfind hrem qty price⟩
  | deleteOrder orderId =>
    intro order hfind
    exact h.removeExact hfind (UInt32.le_refl _)

end Step

/-! ## Whole feeds -/

/-- **A valid feed never aborts the book**, and none of its quantities wraps. -/
theorem valid_feed_never_aborts (ops : List Op)
    (hvalid : Along step (fun b op => op.Valid b.ordersMap) (empty : Book) ops)
    (hfew : Throughout step (fun b => size b.ordersMap < 2 ^ 32) (empty : Book) ops) :
    (∃ b, run step (empty : Book) ops = .ok b) ∧ Along step NoWrap (empty : Book) ops := by
  have hstep : ∀ (pre : List Op) (b : Book) op, b.Aggregates → op.Valid b.ordersMap →
      ∃ b', step b op = .ok b' ∧ (size b'.ordersMap < 2 ^ 32 → b'.Aggregates) := by
    intro _ b op hinv hop
    obtain ⟨change, b', happly, hnext⟩ := apply_valid hinv hop
    exact ⟨b', by rw [step, happly]; rfl, hnext⟩
  constructor
  · obtain ⟨b, hrun, -⟩ := run_total (fun _ b => b.Aggregates) empty_aggregates hstep hvalid hfew
    exact ⟨b, hrun⟩
  · intro pre op post b hops hrun
    have hpre : Along step (fun b op => op.Valid b.ordersMap) (empty : Book) pre := by
      rw [hops] at hvalid
      exact hvalid.left
    have hfew' : Throughout step (fun b => size b.ordersMap < 2 ^ 32) (empty : Book) (pre ++ [op]) := by
      rw [hops, ← List.singleton_append, ← List.append_assoc] at hfew
      exact hfew.left
    obtain ⟨b₁, hrun₁, hinv⟩ :=
      run_total (fun _ b => b.Aggregates) empty_aggregates hstep hpre hfew'.left
    rw [hrun] at hrun₁
    cases hrun₁
    refine noWrap_valid hinv (hvalid pre op post b hops hrun) fun change b' happly => ?_
    have hnext : step b op = .ok b' := by rw [step, happly]; rfl
    exact hfew'.last ((run_concat hrun op).trans hnext)

/-- An order that is partly filled, replaced under its own id and deleted. -/
theorem valid_feed_sample :
    ∃ b, run step (empty : Book) [.addOrder 7 Side.Ask 100 10, .executeOrder 7 40,
      .replaceOrder 7 7 80 12, .deleteOrder 7] = .ok b := by
  apply (valid_feed_never_aborts _ _ _).1
  · exact .cons rfl ⟨⟨by decide, by decide⟩, trivial⟩ <|
      .cons rfl ⟨trivial, ⟨100, 10, Side.Ask⟩, by decide, by decide⟩ <|
      .cons rfl ⟨⟨by decide, Or.inr rfl⟩, by decide⟩ <| .cons rfl ⟨trivial, by decide⟩ .nil
  · exact .cons rfl (by decide) <| .cons rfl (by decide) <| .cons rfl (by decide) <|
      .cons rfl (by decide) <| .nil (by decide)

end OrderBook

end ItchIngestion.OB
