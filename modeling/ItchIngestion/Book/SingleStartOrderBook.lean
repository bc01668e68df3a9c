import ItchIngestion.Book.Views

/-! # The order book of a single strategy (`single_strat_order_book.hpp`)

The same book with a queue to the strategy: a change is pushed, not returned. `stratQueue` is the
sequence of values pushed so far. Whether the queue has room for one more depends on a consumer that
is not part of the book, so the outcomes of `try_push` are a parameter, one for each push.

Its `replace_order` inserts the new order before it erases the old one. That is the one place where
the two books can part (`runs_agree_iff`): an order replaced under its own id is lost here.
-/
namespace ItchIngestion.OB
open Library
set_option autoImplicit false

/-- The book with the changes that it has pushed to its strategy. -/
structure SingleStartOrderBook (Levels : Side → Type) extends OrderBook Levels where
  stratQueue : List BestLvlChange

namespace SingleStartOrderBook
variable {Levels : Side → Type} [LevelStore Levels]

/-! ## The code -/

def empty : SingleStartOrderBook Levels := ⟨OrderBook.empty, []⟩

def addLevel (b : SingleStartOrderBook Levels) (side : Side) (level : Level) :
    Except Fault (BestLvlChange × SingleStartOrderBook Levels) := do
  let (change, book) ← b.toOrderBook.addLevel side level
  return (change, { b with toOrderBook := book })

def removeLevel (b : SingleStartOrderBook Levels) (side : Side) (level : Level) :
    Except Fault (BestLvlChange × SingleStartOrderBook Levels) := do
  let (change, book) ← b.toOrderBook.removeLevel side level
  return (change, { b with toOrderBook := book })

section Code
variable (hasRoom : ℕ → Bool)

/-- `try_push`, and the abort when it fails. -/
def push (message : String) (b : SingleStartOrderBook Levels) (change : BestLvlChange) :
    Except Fault (SingleStartOrderBook Levels) := do
  unexpected (!hasRoom b.stratQueue.length) message
  return { b with stratQueue := b.stratQueue ++ [change] }

/-- The lines that end an operation: a change of the best level goes to the strategy. -/
def notify (message : String) (b : SingleStartOrderBook Levels) (change : BestLvlChange) :
    Except Fault (SingleStartOrderBook Levels) :=
  if change.side ≠ Side.None then b.push hasRoom message change else .ok b

/-- In `replace_order` the addition comes first, the removal only if that changed nothing. -/
def notifyEither (message : String) (b : SingleStartOrderBook Levels) (op1 op2 : BestLvlChange) :
    Except Fault (SingleStartOrderBook Levels) :=
  if op2.side ≠ Side.None then b.push hasRoom message op2
  else if op1.side ≠ Side.None then b.push hasRoom message op1
  else .ok b

def addOrder (b : SingleStartOrderBook Levels) (orderId : UInt64) (side : Side)
    (qty price : UInt32) : Except Fault (SingleStartOrderBook Levels) := do
  let ordersMap := b.ordersMap.emplace orderId ⟨qty, price, side⟩
  let (change, b) ← addLevel { b with ordersMap } side ⟨qty.toUInt64, price⟩
  b.notify hasRoom "Strategy queue blocked, strategy is too slow (add order)" change

/-- The common body of `cancel_order` and `execute_order`, which differ in their messages only. -/
def reduceOrder (notFound tooMuch blocked : String) (b : SingleStartOrderBook Levels)
    (orderId : UInt64) (qty : UInt32) : Except Fault (SingleStartOrderBook Levels) := do
  let order ← b.findOrder orderId notFound
  unexpected (decide (order.qty < qty)) tooMuch
  let (change, b) ← b.removeLevel order.side ⟨qty.toUInt64, order.price⟩
  let b ← b.notify hasRoom blocked change
  return { b with ordersMap := b.ordersMap.reduce orderId order qty }

def cancelOrder (b : SingleStartOrderBook Levels) (orderId : UInt64) (qty : UInt32) :
    Except Fault (SingleStartOrderBook Levels) :=
  reduceOrder hasRoom "Cancel order did not find an order"
    "Partial cancel order volume greater than order volume"
    "Strategy queue blocked, strategy is too slow (cancel order)" b orderId qty

def executeOrder (b : SingleStartOrderBook Levels) (orderId : UInt64) (qty : UInt32) :
    Except Fault (SingleStartOrderBook Levels) :=
  reduceOrder hasRoom "Execute order did not find an order"
    "Partial execute order volume greater than order volume"
    "Strategy queue blocked, strategy is too slow (execute order)" b orderId qty

def replaceOrder (b : SingleStartOrderBook Levels) (orderId newOrderId : UInt64)
    (qty price : UInt32) : Except Fault (SingleStartOrderBook Levels) := do
  let oldOrder ← b.findOrder orderId "Replace order did not find an order"
  let newOrder : Order := ⟨qty, price, oldOrder.side⟩
  let ordersMap := b.ordersMap.emplace newOrderId newOrder
  let (op1, b) ← removeLevel { b with ordersMap } newOrder.side ⟨oldOrder.qty.toUInt64, oldOrder.price⟩
  let (op2, b) ← b.addLevel newOrder.side ⟨qty.toUInt64, price⟩
  let b ← b.notifyEither hasRoom "Strategy queue blocked, strategy is too slow (replace order)" op1 op2
  return { b with ordersMap := b.ordersMap.erase orderId }

def deleteOrder (b : SingleStartOrderBook Levels) (orderId : UInt64) :
    Except Fault (SingleStartOrderBook Levels) := do
  let order ← b.findOrder orderId "Delete order did not find an order"
  let (change, b) ← b.removeLevel order.side ⟨order.qty.toUInt64, order.price⟩
  let b ← b.notify hasRoom "Strategy queue blocked, strategy is too slow (delete order)" change
  return { b with ordersMap := b.ordersMap.erase orderId }

def step (b : SingleStartOrderBook Levels) : Op → Except Fault (SingleStartOrderBook Levels)
  | .addOrder orderId side qty price => b.addOrder hasRoom orderId side qty price
  | .cancelOrder orderId qty => b.cancelOrder hasRoom orderId qty
  | .executeOrder orderId qty => b.executeOrder hasRoom orderId qty
  | .replaceOrder orderId newOrderId qty price => b.replaceOrder hasRoom orderId newOrderId qty price
  | .deleteOrder orderId => b.deleteOrder hasRoom orderId

end Code

/-! ## With room in the queue -/

/-- The book after a change of its stores and its map. -/
def publish (b : SingleStartOrderBook Levels) (r : BestLvlChange × OrderBook Levels) :
    SingleStartOrderBook Levels := ⟨r.2, OrderBook.heard b.stratQueue r.1⟩

section Room
variable {hasRoom : ℕ → Bool} (hroom : ∀ n, hasRoom n = true) (b : SingleStartOrderBook Levels)
include hroom

omit [LevelStore Levels] in
theorem notify_eq (message : String) (change : BestLvlChange) :
    b.notify hasRoom message change = .ok (b.publish (change, b.toOrderBook)) := by
  unfold notify publish OrderBook.heard
  by_cases h : change.side ≠ Side.None
  · rw [if_pos h, if_pos h, push, hroom]
    rfl
  · rw [if_neg h, if_neg h]

omit [LevelStore Levels] in
theorem notifyEither_eq (message : String) (op1 op2 : BestLvlChange) :
    b.notifyEither hasRoom message op1 op2 =
      .ok (b.publish (if op2.side ≠ Side.None then op2 else op1, b.toOrderBook)) := by
  by_cases h : op2.side ≠ Side.None
  · have hpush := notify_eq hroom b message op2
    rw [notify, if_pos h] at hpush
    rw [notifyEither, if_pos h, if_pos h, hpush]
  · rw [notifyEither, if_neg h, if_neg h]
    exact notify_eq hroom b message op1

theorem addOrder_eq (orderId : UInt64) (side : Side) (qty price : UInt32) :
    b.addOrder hasRoom orderId side qty price =
      b.toOrderBook.addOrder orderId side qty price >>= fun r => .ok (b.publish r) := by
  rw [addOrder, OrderBook.addOrder, addLevel]
  dsimp only
  cases h : OrderBook.addLevel { b.toOrderBook with ordersMap := _ } side ⟨qty.toUInt64, price⟩ with
  | error fault => rfl
  | ok r =>
    simp only [ok_bind, pure_eq_ok]
    exact notify_eq hroom _ _ r.1

theorem reduceOrder_eq (notFound tooMuch blocked : String) (orderId : UInt64) (qty : UInt32) :
    reduceOrder hasRoom notFound tooMuch blocked b orderId qty =
      OrderBook.reduceOrder notFound tooMuch b.toOrderBook orderId qty >>= fun r =>
        .ok (b.publish r) := by
  rw [reduceOrder, OrderBook.reduceOrder]
  cases b.findOrder orderId notFound with
  | error fault => rfl
  | ok order =>
    simp only [ok_bind, removeLevel]
    cases unexpected (decide (order.qty < qty)) tooMuch with
    | error fault => rfl
    | ok _ =>
      simp only [ok_bind]
      cases OrderBook.removeLevel b.toOrderBook order.side ⟨qty.toUInt64, order.price⟩ with
      | error fault => rfl
      | ok r =>
        simp only [ok_bind, pure_eq_ok, notify_eq hroom]
        rfl

theorem deleteOrder_eq (orderId : UInt64) : b.deleteOrder hasRoom orderId =
    b.toOrderBook.deleteOrder orderId >>= fun r => .ok (b.publish r) := by
  rw [deleteOrder, OrderBook.deleteOrder]
  cases b.findOrder orderId "Delete order did not find an order" with
  | error fault => rfl
  | ok order =>
    simp only [ok_bind, removeLevel]
    cases OrderBook.removeLevel b.toOrderBook order.side ⟨order.qty.toUInt64, order.price⟩ with
    | error fault => rfl
    | ok r =>
      simp only [ok_bind, pure_eq_ok, notify_eq hroom]
      rfl

/-- The calls of the stores are those of the other book; the maps differ. -/
theorem replaceOrder_eq {orderId : UInt64} {order : Order}
    (hfind : b.ordersMap.lookup orderId = some order) (newOrderId : UInt64) (qty price : UInt32) :
    b.replaceOrder hasRoom orderId newOrderId qty price =
      b.toOrderBook.replaceOrder orderId newOrderId qty price >>= fun r =>
        let ordersMap := (b.ordersMap.emplace newOrderId ⟨qty, price, order.side⟩).erase orderId
        .ok (b.publish (r.1, { r.2 with ordersMap })) := by
  have hframe := OrderBook.removeLevel_setOrders b.toOrderBook
    (b.ordersMap.emplace newOrderId ⟨qty, price, order.side⟩) order.side
    ⟨order.qty.toUInt64, order.price⟩
  rw [replaceOrder, OrderBook.findOrder_eq_ok.mpr hfind, OrderBook.replaceOrder_eq hfind]
  simp only [ok_bind, removeLevel, hframe]
  cases hrem : OrderBook.removeLevel b.toOrderBook order.side ⟨order.qty.toUInt64, order.price⟩ with
  | error fault => rfl
  | ok rem =>
    have hframe₂ := OrderBook.addLevel_setOrders rem.2
      (b.ordersMap.emplace newOrderId ⟨qty, price, order.side⟩) order.side ⟨qty.toUInt64, price⟩
    simp only [ok_bind, pure_eq_ok, addLevel, hframe₂]
    cases hadd : OrderBook.addLevel rem.2 order.side ⟨qty.toUInt64, price⟩ with
    | error fault => rfl
    | ok add =>
      simp only [ok_bind, notifyEither_eq hroom]
      rfl

end Room

/-! ## Where the two books part -/

theorem emplace_erase {m : Orders} {id newId : UInt64} (o : Order) (hne : newId ≠ id) :
    (m.emplace newId o).erase id = Orders.emplace (m.erase id) newId o := by
  have hmem : newId ∈ m.erase id ↔ newId ∈ m := by
    rw [Finmap.mem_erase, and_iff_right hne]
  by_cases h : newId ∈ m
  · rw [Orders.emplace, if_pos h, Orders.emplace, if_pos (hmem.mpr h)]
  · rw [Orders.emplace, if_neg h, Orders.emplace, if_neg (mt hmem.mp h)]
    apply Finmap.ext_lookup
    intro x
    by_cases hx : x = id
    · subst hx
      rw [Finmap.lookup_erase, Finmap.lookup_insert_of_ne _ hne.symm, Finmap.lookup_erase]
    · rw [Finmap.lookup_erase_ne hx]
      by_cases hx' : x = newId
      · subst hx'
        rw [Finmap.lookup_insert, Finmap.lookup_insert]
      · rw [Finmap.lookup_insert_of_ne _ hx', Finmap.lookup_insert_of_ne _ hx',
          Finmap.lookup_erase_ne hx]

/-- A replacement of a live order under its own id, whose level can give its shares back. -/
def ReplacesItself (b : Book) : Op → Prop
  | .replaceOrder orderId newOrderId _ _ => newOrderId = orderId ∧
      ∃ order, b.ordersMap.lookup orderId = some order ∧
        ∃ q, b.view order.side order.price = some q ∧ order.qty.toUInt64 ≤ q
  | _ => False

section Step
variable {hasRoom : ℕ → Bool} (hroom : ∀ n, hasRoom n = true)
  {s : SingleStartOrderBook VectorLevelBSearchSplit} (hwf : s.toOrderBook.WellFormed)
include hroom hwf

theorem step_eq {op : Op} (h : ¬ ReplacesItself s.toOrderBook op) :
    s.step hasRoom op = s.toOrderBook.apply op >>= fun r => .ok (s.publish r) := by
  cases op with
  | addOrder orderId side qty price => exact addOrder_eq hroom s orderId side qty price
  | cancelOrder orderId qty => exact reduceOrder_eq hroom s _ _ _ orderId qty
  | executeOrder orderId qty => exact reduceOrder_eq hroom s _ _ _ orderId qty
  | replaceOrder orderId newOrderId qty price =>
    show s.replaceOrder hasRoom orderId newOrderId qty price =
      s.toOrderBook.replaceOrder orderId newOrderId qty price >>= fun r => .ok (s.publish r)
    cases hfind : s.ordersMap.lookup orderId with
    | none => rw [replaceOrder, OrderBook.replaceOrder, OrderBook.findOrder, hfind]; rfl
    | some order =>
      rw [replaceOrder_eq hroom s hfind, OrderBook.replaceOrder_eq hfind]
      cases hrem : s.toOrderBook.removeLevel order.side ⟨order.qty.toUInt64, order.price⟩ with
      | error fault => rfl
      | ok rem =>
        have hne : newOrderId ≠ orderId := fun e =>
          h ⟨e, order, hfind, (OrderBook.removeLevel_returns_iff hwf).mp ⟨rem, hrem⟩⟩
        rw [emplace_erase _ hne]
        simp only [ok_bind]
        cases rem.2.addLevel order.side ⟨qty.toUInt64, price⟩ <;> rfl
  | deleteOrder orderId => exact deleteOrder_eq hroom s orderId

theorem step_parts {op : Op} (h : ReplacesItself s.toOrderBook op) :
    ∃ r s', s.toOrderBook.apply op = .ok r ∧ s.step hasRoom op = .ok s' ∧
      s'.toOrderBook ≠ r.2 := by
  cases op with
  | replaceOrder orderId newOrderId qty price =>
    obtain ⟨rfl, order, hfind, hlevel⟩ := h
    obtain ⟨rem, hrem⟩ := (@OrderBook.removeLevel_returns_iff s.toOrderBook order.side
      ⟨order.qty.toUInt64, order.price⟩ hwf).mpr hlevel
    obtain ⟨add, b₂, hadd, -⟩ := OrderBook.addLevel_spec (OrderBook.removeLevel_ok hwf hrem).1
      order.side ⟨qty.toUInt64, price⟩
    have hrun := @OrderBook.replaceOrder_eq _ _ s.toOrderBook newOrderId newOrderId order qty price hfind
    rw [hrem, ok_bind, hadd, ok_bind] at hrun
    have hrun' := replaceOrder_eq hroom s hfind newOrderId qty price
    rw [hrun, ok_bind] at hrun'
    refine ⟨_, _, hrun, hrun', fun e => ?_⟩
    have hmaps := congrArg (fun b : Book => b.ordersMap.lookup newOrderId) e
    dsimp only [publish] at hmaps
    rw [Finmap.lookup_erase, Orders.lookup_emplace Finmap.notMem_erase_self] at hmaps
    cases hmaps
  | addOrder | cancelOrder | executeOrder | deleteOrder => exact h.elim

end Step

/-! ## Runs -/

section Runs
variable (hasRoom : ℕ → Bool)

/-- After the same operations the two books and what was heard of them are the same, or both have
stopped. -/
def Agree (ops : List Op) : Prop :=
  (∃ b changes s, run OrderBook.record (OrderBook.empty, []) ops = .ok (b, changes) ∧
      run (step hasRoom) (empty : SingleStartOrderBook VectorLevelBSearchSplit) ops = .ok s ∧
      s.toOrderBook = b ∧ s.stratQueue = changes) ∨
    ∃ message message',
      run OrderBook.record ((OrderBook.empty : Book), []) ops = .error (.unexpected message) ∧
      run (step hasRoom) (empty : SingleStartOrderBook VectorLevelBSearchSplit) ops =
        .error (.unexpected message')

theorem record_wellFormed {ops : List Op} {s : Book × List BestLvlChange}
    (h : run OrderBook.record (OrderBook.empty, []) ops = .ok s) : s.1.WellFormed := by
  refine run_invariant (fun s : Book × List BestLvlChange => s.1.WellFormed)
    OrderBook.empty_wellFormed ?_ h
  intro t op u hwf hstep
  obtain ⟨⟨change, b⟩, happly, hstep⟩ := bind_eq_ok.mp hstep
  cases hstep
  exact (OrderBook.apply_announces hwf happly).1

variable {hasRoom} (hroom : ∀ n, hasRoom n = true) {ops : List Op}
include hroom

theorem agree_of_along (h : Along OrderBook.record (fun s op => ¬ ReplacesItself s.1 op)
    (OrderBook.empty, []) ops) : Agree hasRoom ops := by
  induction ops using List.reverseRecOn with
  | nil => exact Or.inl ⟨_, _, _, rfl, rfl, rfl, rfl⟩
  | append_singleton ops op ih =>
    rcases ih h.left with ⟨_, _, s, hb, hs, rfl, rfl⟩ | ⟨message, message', hb, hs⟩
    · have hwf : s.toOrderBook.WellFormed := record_wellFormed hb
      have hb' := run_concat hb op
      have hs' := run_concat hs op
      rw [step_eq hroom hwf (h.last hb)] at hs'
      rw [OrderBook.record] at hb'
      dsimp only at hb'
      cases happly : s.toOrderBook.apply op with
      | error fault =>
        obtain ⟨message, rfl⟩ := OrderBook.apply_error hwf happly
        rw [happly, error_bind] at hb' hs'
        exact Or.inr ⟨message, message, hb', hs'⟩
      | ok r =>
        rw [happly, ok_bind] at hb' hs'
        exact Or.inl ⟨_, _, _, hb', hs', rfl, rfl⟩
    · exact Or.inr ⟨message, message', run_append_of_error hb [op], run_append_of_error hs [op]⟩

/-- **Where the two books agree along a whole run.** -/
theorem runs_agree_iff (ops : List Op) : (∀ pre, pre <+: ops → Agree hasRoom pre) ↔
    Along OrderBook.record (fun s op => ¬ ReplacesItself s.1 op) ((OrderBook.empty : Book), []) ops := by
  constructor
  · rintro hagree pre op post ⟨b, changes⟩ rfl hb hself
    have hprefix : pre ++ [op] <+: pre ++ op :: post := ⟨post, by rw [List.append_assoc]; rfl⟩
    rcases hagree pre (List.prefix_append ..) with ⟨_, _, s, hb₁, hs, rfl, rfl⟩ | ⟨_, _, hb₁, -⟩
    · rw [hb] at hb₁
      cases hb₁
      obtain ⟨r, s', happly, hs', hne⟩ := step_parts hroom (record_wellFormed hb) hself
      have hbr := run_concat hb op
      rw [OrderBook.record, happly, ok_bind] at hbr
      have hss := (run_concat hs op).trans hs'
      rcases hagree _ hprefix with ⟨_, _, s₂, hb₂, hs₂, he, -⟩ | ⟨_, _, -, hs₂⟩
      · rw [hss] at hs₂
        rw [hbr] at hb₂
        cases hs₂
        cases hb₂
        exact hne he
      · rw [hss] at hs₂
        cases hs₂
    · rw [hb] at hb₁
      cases hb₁
  · rintro hlong pre ⟨post, rfl⟩
    exact agree_of_along hroom hlong.left

end Runs

/-- An order that is replaced under its own id. -/
theorem own_id_lost : ∃ b changes s,
    run OrderBook.record ((OrderBook.empty : Book), [])
      [.addOrder 1 Side.Bid 5 10, .replaceOrder 1 1 7 11] = .ok (b, changes) ∧
    run (step fun _ => true) (empty : SingleStartOrderBook VectorLevelBSearchSplit)
      [.addOrder 1 Side.Bid 5 10, .replaceOrder 1 1 7 11] = .ok s ∧
    b.ordersMap.lookup 1 = some ⟨7, 11, Side.Bid⟩ ∧ s.ordersMap.lookup 1 = none :=
  ⟨_, _, _, rfl, rfl, by decide, by decide⟩

theorem other_id_kept :
    Agree (fun _ => true) [.addOrder 1 Side.Bid 5 10, .replaceOrder 1 2 7 11] := by
  have h := runs_agree_iff (fun _ => rfl) [.addOrder 1 Side.Bid 5 10, .replaceOrder 1 2 7 11]
  refine h.mpr ?_ _ List.prefix_rfl
  exact .cons rfl (fun h => h) <| .cons rfl (fun h => absurd h.1 (by decide)) .nil

end SingleStartOrderBook

end ItchIngestion.OB
