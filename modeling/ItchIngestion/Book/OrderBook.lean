import ItchIngestion.Levels.LevelMap
import ItchIngestion.Library.FinmapSum
import ItchIngestion.Library.Run

/-! # The order book (`order_book.hpp`)

`OrderBook` keeps the live orders in a hash map and the two sides in a level store it is generic
over. `absl::flat_hash_map` is a finite map: `insert` and `emplace` keep an entry that is already
there. A book is driven by a list of operations (`Op`), and `apply` is one of them.

What an operation does to the map of orders does not depend on the store (`apply_orders`).
-/
namespace ItchIngestion.OB
open Library
set_option autoImplicit false

abbrev Orders := Finmap (fun _ : UInt64 => Order)

/-- `insert` and `emplace` of a hash map. -/
def Orders.emplace (m : Orders) (orderId : UInt64) (order : Order) : Orders :=
  if orderId ∈ m then m else m.insert orderId order

/-- What is left of an order after `qty` of it went away; an exhausted order leaves the map. -/
def Orders.reduce (m : Orders) (orderId : UInt64) (order : Order) (qty : UInt32) : Orders :=
  if order.qty - qty = 0 then m.erase orderId
  else m.insert orderId { order with qty := order.qty - qty }

namespace Orders
variable {m : Orders} {orderId id : UInt64} {o : Order} {qty : UInt32}

theorem lookup_emplace (h : orderId ∉ m) : (m.emplace orderId o).lookup orderId = some o := by
  rw [emplace, if_neg h, Finmap.lookup_insert]

theorem lookup_emplace_ne (hid : id ≠ orderId) : (m.emplace orderId o).lookup id = m.lookup id := by
  unfold emplace
  split
  · rfl
  · exact Finmap.lookup_insert_of_ne m hid

theorem size_emplace_le : size (m.emplace id o) ≤ size m + 1 := by
  unfold emplace
  split
  · exact Nat.le_succ _
  · rename_i hnew
    exact (size_insert hnew).le

theorem lookup_reduce : (m.reduce orderId o qty).lookup orderId =
    if o.qty - qty = 0 then none else some { o with qty := o.qty - qty } := by
  unfold reduce
  split
  · exact Finmap.lookup_erase orderId m
  · exact Finmap.lookup_insert m

theorem lookup_reduce_ne (hid : id ≠ orderId) : (m.reduce orderId o qty).lookup id = m.lookup id := by
  unfold reduce
  split
  · exact Finmap.lookup_erase_ne hid
  · exact Finmap.lookup_insert_of_ne m hid

theorem size_reduce_le (hfind : m.lookup id = some o) (qty : UInt32) : size (m.reduce id o qty) ≤ size m := by
  have herase := size_erase hfind
  unfold reduce
  split
  · omega
  · rw [insert_eq_insert_erase, size_insert Finmap.notMem_erase_self]
    omega

theorem total_reduce (h : m.lookup orderId = some o) (qty : UInt32) (w : Order → ℕ) :
    total (m.reduce orderId o qty) w + w o =
      total m w + if o.qty - qty = 0 then 0 else w { o with qty := o.qty - qty } := by
  rw [total_erase h w, reduce]
  split
  · omega
  · rw [insert_eq_insert_erase, total_insert Finmap.notMem_erase_self]
    omega

end Orders

/-- `OrderBook<Levels>`: the live orders, and a store of levels for each side. -/
structure OrderBook (Levels : Side → Type) where
  ordersMap : Orders
  bidLevels : Levels Side.Bid
  askLevels : Levels Side.Ask

/-- A call of one of the five public operations, with its arguments. -/
inductive Op
  | addOrder (orderId : UInt64) (side : Side) (qty : UInt32) (price : UInt32)
  | cancelOrder (orderId : UInt64) (qty : UInt32)
  | executeOrder (orderId : UInt64) (qty : UInt32)
  | replaceOrder (orderId newOrderId : UInt64) (qty : UInt32) (price : UInt32)
  | deleteOrder (orderId : UInt64)
deriving DecidableEq

namespace OrderBook
variable {Levels : Side → Type} [LevelStore Levels]

/-! ## The code -/

def empty : OrderBook Levels := ⟨∅, LevelStore.init, LevelStore.init⟩

def bestBid (b : OrderBook Levels) : Except Fault (Level × OrderBook Levels) := do
  let (level, bidLevels) ← LevelStore.best b.bidLevels
  return (level, { b with bidLevels })

def bestAsk (b : OrderBook Levels) : Except Fault (Level × OrderBook Levels) := do
  let (level, askLevels) ← LevelStore.best b.askLevels
  return (level, { b with askLevels })

/-- Every operation picks the store of an order by `side == Side::Bid`. -/
def addLevel (b : OrderBook Levels) (side : Side) (level : Level) :
    Except Fault (BestLvlChange × OrderBook Levels) :=
  if side = Side.Bid then do
    let (change, bidLevels) ← LevelStore.add b.bidLevels level
    return (change, { b with bidLevels })
  else do
    let (change, askLevels) ← LevelStore.add b.askLevels level
    return (change, { b with askLevels })

/-- The store of the side takes the quantity off the level. -/
def removeLevel (b : OrderBook Levels) (side : Side) (level : Level) :
    Except Fault (BestLvlChange × OrderBook Levels) :=
  if side = Side.Bid then do
    let (change, bidLevels) ← LevelStore.remove b.bidLevels level
    return (change, { b with bidLevels })
  else do
    let (change, askLevels) ← LevelStore.remove b.askLevels level
    return (change, { b with askLevels })

/-- `emplace` keeps an order that is already there under the id, and the level grows all the same. -/
def addOrder (b : OrderBook Levels) (orderId : UInt64) (side : Side) (qty price : UInt32) :
    Except Fault (BestLvlChange × OrderBook Levels) :=
  let ordersMap := b.ordersMap.emplace orderId ⟨qty, price, side⟩
  addLevel { b with ordersMap } side ⟨qty.toUInt64, price⟩

/-- The order with an id, or the abort of the operation that asked for it. -/
def findOrder (b : OrderBook Levels) (orderId : UInt64) (message : String) : Except Fault Order :=
  match b.ordersMap.lookup orderId with
  | some order => .ok order
  | none => .error (.unexpected message)

/-- The common body of `cancel_order` and `execute_order`, which differ in their messages only. -/
def reduceOrder (notFound tooMuch : String) (b : OrderBook Levels) (orderId : UInt64)
    (qty : UInt32) : Except Fault (BestLvlChange × OrderBook Levels) := do
  let order ← b.findOrder orderId notFound
  unexpected (decide (order.qty < qty)) tooMuch
  let (change, b) ← b.removeLevel order.side ⟨qty.toUInt64, order.price⟩
  return (change, { b with ordersMap := b.ordersMap.reduce orderId order qty })

def cancelOrder (b : OrderBook Levels) (orderId : UInt64) (qty : UInt32) :
    Except Fault (BestLvlChange × OrderBook Levels) :=
  reduceOrder "Cancel order did not find an order"
    "Partial cancel order volume greater than order volume" b orderId qty

def executeOrder (b : OrderBook Levels) (orderId : UInt64) (qty : UInt32) :
    Except Fault (BestLvlChange × OrderBook Levels) :=
  reduceOrder "Execute order did not find an order"
    "Partial execute order volume greater than order volume" b orderId qty

/-- `replace_order`: off the old level, onto the new one, and the side stays. -/
def replaceOrder (b : OrderBook Levels) (orderId newOrderId : UInt64) (qty price : UInt32) :
    Except Fault (BestLvlChange × OrderBook Levels) := do
  let oldOrder ← b.findOrder orderId "Replace order did not find an order"
  let newOrder : Order := ⟨qty, price, oldOrder.side⟩
  let (bestChangeRem, b) ← b.removeLevel newOrder.side ⟨oldOrder.qty.toUInt64, oldOrder.price⟩
  let (bestChangeAdd, b) ← b.addLevel newOrder.side ⟨qty.toUInt64, price⟩
  let ordersMap := Orders.emplace (b.ordersMap.erase orderId) newOrderId newOrder
  if bestChangeAdd.side ≠ Side.None then return (bestChangeAdd, { b with ordersMap })
  else return (bestChangeRem, { b with ordersMap })

def deleteOrder (b : OrderBook Levels) (orderId : UInt64) :
    Except Fault (BestLvlChange × OrderBook Levels) := do
  let order ← b.findOrder orderId "Delete order did not find an order"
  let (change, b) ← b.removeLevel order.side ⟨order.qty.toUInt64, order.price⟩
  return (change, { b with ordersMap := b.ordersMap.erase orderId })

def apply (b : OrderBook Levels) : Op → Except Fault (BestLvlChange × OrderBook Levels)
  | .addOrder orderId side qty price => b.addOrder orderId side qty price
  | .cancelOrder orderId qty => b.cancelOrder orderId qty
  | .executeOrder orderId qty => b.executeOrder orderId qty
  | .replaceOrder orderId newOrderId qty price => b.replaceOrder orderId newOrderId qty price
  | .deleteOrder orderId => b.deleteOrder orderId

/-- `apply` with the report dropped. -/
def step (b : OrderBook Levels) (op : Op) : Except Fault (OrderBook Levels) := do
  let (_, b) ← b.apply op
  return b

/-- What a listener hears of a returned change. -/
def heard (changes : List BestLvlChange) (change : BestLvlChange) : List BestLvlChange :=
  if change.side ≠ Side.None then changes ++ [change] else changes

/-- `apply` with the changes kept that name a side. -/
def record (s : OrderBook Levels × List BestLvlChange) (op : Op) :
    Except Fault (OrderBook Levels × List BestLvlChange) := do
  let (change, b) ← s.1.apply op
  return (b, heard s.2 change)

/-! ## Operations on a live order

The checks on the map passed, an operation is its calls of the store and one update of the map. -/

section Equations
variable {b b' : OrderBook Levels} {change : BestLvlChange} {side : Side} {level : Level}

theorem addLevel_orders (h : b.addLevel side level = .ok (change, b')) :
    b'.ordersMap = b.ordersMap := by
  unfold addLevel at h
  split at h <;> obtain ⟨r, -, h⟩ := bind_eq_ok.mp h <;> cases h <;> rfl

theorem removeLevel_orders (h : b.removeLevel side level = .ok (change, b')) :
    b'.ordersMap = b.ordersMap := by
  unfold removeLevel at h
  split at h <;> obtain ⟨r, -, h⟩ := bind_eq_ok.mp h <;> cases h <;> rfl

theorem addLevel_setOrders (b : OrderBook Levels) (m : Orders) (side : Side) (level : Level) :
    addLevel { b with ordersMap := m } side level =
      b.addLevel side level >>= fun r => .ok (r.1, { r.2 with ordersMap := m }) := by
  unfold addLevel
  split
  · cases LevelStore.add b.bidLevels level <;> rfl
  · cases LevelStore.add b.askLevels level <;> rfl

theorem removeLevel_setOrders (b : OrderBook Levels) (m : Orders) (side : Side) (level : Level) :
    removeLevel { b with ordersMap := m } side level =
      b.removeLevel side level >>= fun r => .ok (r.1, { r.2 with ordersMap := m }) := by
  unfold removeLevel
  split
  · cases LevelStore.remove b.bidLevels level <;> rfl
  · cases LevelStore.remove b.askLevels level <;> rfl

omit [LevelStore Levels] in
theorem findOrder_eq_ok {orderId : UInt64} {message : String} {order : Order} :
    b.findOrder orderId message = .ok order ↔ b.ordersMap.lookup orderId = some order := by
  unfold findOrder
  cases b.ordersMap.lookup orderId <;> simp

variable {orderId newOrderId : UInt64} {order : Order} {qty price : UInt32}

theorem reduceOrder_eq (notFound tooMuch : String) (hfind : b.ordersMap.lookup orderId = some order)
    (hqty : qty ≤ order.qty) : reduceOrder notFound tooMuch b orderId qty =
      b.removeLevel order.side ⟨qty.toUInt64, order.price⟩ >>= fun r =>
        .ok (r.1, { r.2 with ordersMap := b.ordersMap.reduce orderId order qty }) := by
  have hguard : decide (order.qty < qty) = false := by simpa using hqty
  rw [reduceOrder, findOrder_eq_ok.mpr hfind, ok_bind, hguard, unexpected_false, ok_bind]
  cases hrem : b.removeLevel order.side ⟨qty.toUInt64, order.price⟩ with
  | error fault => rfl
  | ok r => rw [ok_bind, ok_bind, ← removeLevel_orders hrem]; rfl

theorem replaceOrder_eq (hfind : b.ordersMap.lookup orderId = some order) :
    b.replaceOrder orderId newOrderId qty price =
      b.removeLevel order.side ⟨order.qty.toUInt64, order.price⟩ >>= fun rem =>
        rem.2.addLevel order.side ⟨qty.toUInt64, price⟩ >>= fun add =>
          let ordersMap := Orders.emplace (b.ordersMap.erase orderId) newOrderId ⟨qty, price, order.side⟩
          .ok (if add.1.side ≠ Side.None then add.1 else rem.1, { add.2 with ordersMap }) := by
  rw [replaceOrder, findOrder_eq_ok.mpr hfind, ok_bind]
  dsimp only
  cases hrem : b.removeLevel order.side ⟨order.qty.toUInt64, order.price⟩ with
  | error fault => rfl
  | ok rem =>
    rw [ok_bind, ok_bind]
    cases hadd : rem.2.addLevel order.side ⟨qty.toUInt64, price⟩ with
    | error fault => rfl
    | ok add =>
      rw [ok_bind, ok_bind, ← removeLevel_orders hrem, ← addLevel_orders hadd]
      split <;> rfl

theorem deleteOrder_eq (hfind : b.ordersMap.lookup orderId = some order) :
    b.deleteOrder orderId =
      b.removeLevel order.side ⟨order.qty.toUInt64, order.price⟩ >>= fun r =>
        .ok (r.1, { r.2 with ordersMap := b.ordersMap.erase orderId }) := by
  rw [deleteOrder, findOrder_eq_ok.mpr hfind, ok_bind]
  cases hrem : b.removeLevel order.side ⟨order.qty.toUInt64, order.price⟩ with
  | error fault => rfl
  | ok r => rw [ok_bind, ok_bind, ← removeLevel_orders hrem]; rfl

end Equations

/-! ## What an operation does to the map of orders

`OrdersStep` is the transition of the map alone, with every condition that an operation which
returned has passed. -/

/-- What an operation that returned has done to the map of orders. -/
inductive OrdersStep (m : Orders) : Op → Orders → Prop
  | addOrder (orderId : UInt64) (side : Side) (qty price : UInt32) :
      OrdersStep m (.addOrder orderId side qty price) (m.emplace orderId ⟨qty, price, side⟩)
  | cancelOrder {orderId : UInt64} {order : Order} {qty : UInt32}
      (hfind : m.lookup orderId = some order) (hqty : qty ≤ order.qty) :
      OrdersStep m (.cancelOrder orderId qty) (m.reduce orderId order qty)
  | executeOrder {orderId : UInt64} {order : Order} {qty : UInt32}
      (hfind : m.lookup orderId = some order) (hqty : qty ≤ order.qty) :
      OrdersStep m (.executeOrder orderId qty) (m.reduce orderId order qty)
  | replaceOrder {orderId : UInt64} {order : Order} (newOrderId : UInt64) (qty price : UInt32)
      (hfind : m.lookup orderId = some order) :
      OrdersStep m (.replaceOrder orderId newOrderId qty price)
        (Orders.emplace (m.erase orderId) newOrderId ⟨qty, price, order.side⟩)
  | deleteOrder {orderId : UInt64} {order : Order} (hfind : m.lookup orderId = some order) :
      OrdersStep m (.deleteOrder orderId) (m.erase orderId)

section Inversion
variable {b b' : OrderBook Levels} {change : BestLvlChange} {side : Side} {level : Level}

theorem addOrder_ok {orderId : UInt64} {qty price : UInt32}
    (h : b.addOrder orderId side qty price = .ok (change, b')) :
    b'.ordersMap = b.ordersMap.emplace orderId ⟨qty, price, side⟩ := addLevel_orders h

theorem reduceOrder_ok {notFound tooMuch : String} {orderId : UInt64} {qty : UInt32}
    (h : reduceOrder notFound tooMuch b orderId qty = .ok (change, b')) :
    ∃ order b₁, b.ordersMap.lookup orderId = some order ∧ qty ≤ order.qty ∧
      b.removeLevel order.side ⟨qty.toUInt64, order.price⟩ = .ok (change, b₁) ∧
      b' = { b₁ with ordersMap := b.ordersMap.reduce orderId order qty } := by
  unfold reduceOrder at h
  obtain ⟨order, hfind, h⟩ := bind_eq_ok.mp h
  obtain ⟨_, hqty, h⟩ := bind_eq_ok.mp h
  obtain ⟨⟨c, b₁⟩, hrem, h⟩ := bind_eq_ok.mp h
  cases h
  have hle : ¬ order.qty < qty := by simpa using unexpected_eq_ok.mp hqty
  refine ⟨order, b₁, findOrder_eq_ok.mp hfind, UInt32.not_lt.mp hle, hrem, ?_⟩
  rw [removeLevel_orders hrem]

theorem replaceOrder_ok {orderId newOrderId : UInt64} {qty price : UInt32}
    (h : b.replaceOrder orderId newOrderId qty price = .ok (change, b')) :
    ∃ order rem b₁ add b₂, b.ordersMap.lookup orderId = some order ∧
      b.removeLevel order.side ⟨order.qty.toUInt64, order.price⟩ = .ok (rem, b₁) ∧
      b₁.addLevel order.side ⟨qty.toUInt64, price⟩ = .ok (add, b₂) ∧
      change = (if add.side ≠ Side.None then add else rem) ∧
      b' = { b₂ with ordersMap :=
        Orders.emplace (b.ordersMap.erase orderId) newOrderId ⟨qty, price, order.side⟩ } := by
  unfold replaceOrder at h
  obtain ⟨order, hfind, h⟩ := bind_eq_ok.mp h
  obtain ⟨⟨rem, b₁⟩, hrem, h⟩ := bind_eq_ok.mp h
  obtain ⟨⟨add, b₂⟩, hadd, h⟩ := bind_eq_ok.mp h
  have horders : b₂.ordersMap = b.ordersMap := (addLevel_orders hadd).trans (removeLevel_orders hrem)
  refine ⟨order, rem, b₁, add, b₂, findOrder_eq_ok.mp hfind, hrem, hadd, ?_⟩
  dsimp only at h
  rw [horders] at h
  split at h
  · rename_i hside
    cases h
    exact ⟨by rw [if_pos hside], rfl⟩
  · rename_i hside
    cases h
    exact ⟨by rw [if_neg hside], rfl⟩

theorem deleteOrder_ok {orderId : UInt64} (h : b.deleteOrder orderId = .ok (change, b')) :
    ∃ order b₁, b.ordersMap.lookup orderId = some order ∧
      b.removeLevel order.side ⟨order.qty.toUInt64, order.price⟩ = .ok (change, b₁) ∧
      b' = { b₁ with ordersMap := b.ordersMap.erase orderId } := by
  unfold deleteOrder at h
  obtain ⟨order, hfind, h⟩ := bind_eq_ok.mp h
  obtain ⟨⟨c, b₁⟩, hrem, h⟩ := bind_eq_ok.mp h
  cases h
  refine ⟨order, b₁, findOrder_eq_ok.mp hfind, hrem, ?_⟩
  rw [removeLevel_orders hrem]

/-- **The map of orders moves on its own**, whatever the store is. -/
theorem apply_orders {op : Op} (h : b.apply op = .ok (change, b')) :
    OrdersStep b.ordersMap op b'.ordersMap := by
  cases op with
  | addOrder orderId side qty price =>
    rw [addOrder_ok h]
    exact .addOrder orderId side qty price
  | cancelOrder orderId qty =>
    obtain ⟨order, b₁, hfind, hqty, -, rfl⟩ := reduceOrder_ok h
    exact .cancelOrder hfind hqty
  | executeOrder orderId qty =>
    obtain ⟨order, b₁, hfind, hqty, -, rfl⟩ := reduceOrder_ok h
    exact .executeOrder hfind hqty
  | replaceOrder orderId newOrderId qty price =>
    obtain ⟨order, rem, b₁, add, b₂, hfind, -, -, -, rfl⟩ := replaceOrder_ok h
    exact .replaceOrder newOrderId qty price hfind
  | deleteOrder orderId =>
    obtain ⟨order, b₁, hfind, -, rfl⟩ := deleteOrder_ok h
    exact .deleteOrder hfind

theorem step_ok {op : Op} (h : b.step op = .ok b') : ∃ change, b.apply op = .ok (change, b') := by
  obtain ⟨⟨change, b₁⟩, happly, h⟩ := bind_eq_ok.mp h
  cases h
  exact ⟨change, happly⟩

end Inversion

end OrderBook

end ItchIngestion.OB
