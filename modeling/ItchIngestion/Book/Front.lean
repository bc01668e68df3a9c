import ItchIngestion.Book.Views
import ItchIngestion.Levels.Notification

/-! # Which operations a book announces

The change that an operation returns names a side exactly when the operation works at the front of
that side (`announced_iff`): an addition at its price, a removal at the price of the live order, and a
replacement at either, where the new price meets the side without the old order.
-/
namespace ItchIngestion.OB
set_option autoImplicit false

namespace OrderBook

/-- The prices on the side of an order. -/
def prices (b : Book) (side : Side) : List UInt32 :=
  if side = Side.Bid then b.bidLevels.prices else b.askLevels.prices

/-- The prices that stay when an order is taken off its level. -/
def pricesWithout (b : Book) (order : Order) : List UInt32 :=
  if b.view order.side order.price = some order.qty.toUInt64 then
    (b.prices order.side).erase order.price
  else b.prices order.side

/-- The operation works at the front of a side of the book. -/
def AtFront (b : Book) : Op → Prop
  | .addOrder _ side _ price => side.book.AtFront (b.prices side) price
  | .cancelOrder orderId _ | .executeOrder orderId _ | .deleteOrder orderId =>
    ∃ order, b.ordersMap.lookup orderId = some order ∧
      order.side.book.AtFront (b.prices order.side) order.price
  | .replaceOrder orderId _ _ price =>
    ∃ order, b.ordersMap.lookup orderId = some order ∧
      (order.side.book.AtFront (b.prices order.side) order.price ∨
        order.side.book.AtFront (b.pricesWithout order) price)

variable {b b' : Book} {side : Side} {level : Level} {change : BestLvlChange}

theorem addLevel_announces_iff (h : b.WellFormed) (hadd : b.addLevel side level = .ok (change, b')) :
    change.side ≠ Side.None ↔ side.book.AtFront (b.prices side) level.price := by
  by_cases hside : side = Side.Bid
  · rw [addLevel_bid b level hside] at hadd
    obtain ⟨⟨c, l⟩, hl, heq⟩ := bind_eq_ok.mp hadd
    cases heq
    rw [Side.book_eq_bid.mpr hside, prices, if_pos hside]
    exact VectorLevelBSearchSplit.add_announces_iff (by decide) h.bid hl
  · rw [addLevel_ask b level hside] at hadd
    obtain ⟨⟨c, l⟩, hl, heq⟩ := bind_eq_ok.mp hadd
    cases heq
    rw [Side.book_eq_ask.mpr hside, prices, if_neg hside]
    exact VectorLevelBSearchSplit.add_announces_iff (by decide) h.ask hl

theorem removeLevel_announces_iff (h : b.WellFormed)
    (hrem : b.removeLevel side level = .ok (change, b')) :
    (change.side ≠ Side.None ↔ side.book.AtFront (b.prices side) level.price) ∧
      b'.prices side = if b.view side level.price = some level.qty then
        (b.prices side).erase level.price else b.prices side := by
  by_cases hside : side = Side.Bid
  · rw [removeLevel_bid b level hside] at hrem
    obtain ⟨⟨c, l⟩, hl, heq⟩ := bind_eq_ok.mp hrem
    cases heq
    rw [Side.book_eq_bid.mpr hside, prices, prices, view, if_pos hside, if_pos hside, if_pos hside]
    exact VectorLevelBSearchSplit.remove_announces_iff (by decide) h.bid hl
  · rw [removeLevel_ask b level hside] at hrem
    obtain ⟨⟨c, l⟩, hl, heq⟩ := bind_eq_ok.mp hrem
    cases heq
    rw [Side.book_eq_ask.mpr hside, prices, prices, view, if_neg hside, if_neg hside, if_neg hside]
    exact VectorLevelBSearchSplit.remove_announces_iff (by decide) h.ask hl

theorem live_announces_iff {orderId : UInt64} {order : Order} {qty : UInt64} (h : b.WellFormed)
    (hfind : b.ordersMap.lookup orderId = some order)
    (hrem : b.removeLevel order.side ⟨qty, order.price⟩ = .ok (change, b')) :
    change.side ≠ Side.None ↔ ∃ order, b.ordersMap.lookup orderId = some order ∧
      order.side.book.AtFront (b.prices order.side) order.price := by
  rw [(removeLevel_announces_iff h hrem).1, hfind]
  constructor
  · exact fun hfront => ⟨order, rfl, hfront⟩
  · rintro ⟨_, ⟨rfl⟩, hfront⟩
    exact hfront

/-- **An operation is announced exactly when it works at the front of a side.** -/
theorem announced_iff (h : b.WellFormed) {op : Op} (happly : b.apply op = .ok (change, b')) :
    change.side ≠ Side.None ↔ b.AtFront op := by
  cases op with
  | addOrder orderId side qty price =>
    have hwf : WellFormed { b with ordersMap := b.ordersMap.emplace orderId ⟨qty, price, side⟩ } :=
      ⟨h.bid, h.ask⟩
    exact addLevel_announces_iff hwf happly
  | cancelOrder orderId qty | executeOrder orderId qty =>
    obtain ⟨order, b₁, hfind, -, hrem, -⟩ := reduceOrder_ok happly
    exact live_announces_iff h hfind hrem
  | deleteOrder orderId =>
    obtain ⟨order, b₁, hfind, hrem, -⟩ := deleteOrder_ok happly
    exact live_announces_iff h hfind hrem
  | replaceOrder orderId newOrderId qty price =>
    obtain ⟨order, rem, b₁, add, b₂, hfind, hrem, hadd, rfl, -⟩ := replaceOrder_ok happly
    obtain ⟨hremoved, hprices⟩ := removeLevel_announces_iff h hrem
    have hadded := addLevel_announces_iff (removeLevel_ok h hrem).1 hadd
    rw [hprices] at hadded
    have hmerged : (if add.side ≠ Side.None then add else rem).side ≠ Side.None ↔
        rem.side ≠ Side.None ∨ add.side ≠ Side.None := by
      by_cases hnone : add.side = Side.None
      · rw [if_neg (not_not.mpr hnone)]
        exact ⟨Or.inl, fun hor => hor.resolve_right (not_not.mpr hnone)⟩
      · rw [if_pos hnone]
        exact iff_of_true hnone (Or.inr hnone)
    rw [hmerged, hremoved, hadded, AtFront, hfind]
    constructor
    · exact fun hfront => ⟨order, rfl, hfront⟩
    · rintro ⟨_, ⟨rfl⟩, hfront⟩
      exact hfront

end OrderBook

end ItchIngestion.OB
