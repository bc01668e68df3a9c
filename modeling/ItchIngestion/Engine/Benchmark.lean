import ItchIngestion.Engine.Market

/-! # The benchmark of a book (`example_benchmark.hpp`)

`BenchmarkOrderBook` is another handler of the feed, for NVDA alone: it measures every message that
concerns its book and keeps the prices of the best bid during market hours. It takes the locate code
from the last directory message of NVDA, and 65535 until there is one.

On a feed in which NVDA has one code of its own, its book is the one of the engine
(`benchmark_measures_book`), and the prices kept follow that book (`prices_follow_best_bid`).
-/
namespace ItchIngestion.Engine
open Library ITCH OB
set_option autoImplicit false

/-! ## The code -/

/-- The benchmark handler with its book of one instrument and what it records. -/
structure BenchmarkOrderBook where
  targetStockLocate : UInt16
  orderBook : Book
  touched : Bool
  latencyDistribution : Finmap fun _ : UInt64 => UInt64
  totalMessages : UInt64
  t0 : UInt64
  lastMessage : Bool
  recordPrices : Bool
  prices : List (UInt64 × UInt32)

/-- A message with the readings of the clock before and behind it. -/
structure Timed where
  before : UInt64
  message : Message
  after : UInt64

def nvdaSymbol : List UInt8 := ['N', 'V', 'D', 'A', ' ', ' ', ' ', ' '].map Char.toUInt8

namespace BenchmarkOrderBook

/-- A new benchmark; `t0` is not initialised. -/
def init (t0 : UInt64) : BenchmarkOrderBook where
  targetStockLocate := 65535
  orderBook := OrderBook.empty
  touched := false
  latencyDistribution := ∅
  totalMessages := 0
  t0 := t0
  lastMessage := false
  recordPrices := false
  prices := [(0, 0)]

def handleBefore (now : UInt64) (b : BenchmarkOrderBook) : BenchmarkOrderBook :=
  { b with touched := false, t0 := now }

/-- `latency_distribution[latency_ns]++`, if the message was for the book. -/
def handleAfter (now : UInt64) (b : BenchmarkOrderBook) : Except Fault BenchmarkOrderBook := do
  let (_, book) ← b.orderBook.bestBid
  let ns := now - b.t0
  let count := (b.latencyDistribution.lookup ns).getD 0
  return { b with
    orderBook := book
    latencyDistribution :=
      if b.touched then b.latencyDistribution.insert ns (count + 1) else b.latencyDistribution }

/-- A best bid at a new price is recorded, within market hours. -/
def handleChange (change : BestLvlChange) (timestamp : UInt64) (b : BenchmarkOrderBook) :
    BenchmarkOrderBook :=
  let recorded := match b.prices.getLast? with
    | none => false
    | some last => b.recordPrices && change.side = Side.Bid && change.price ≠ last.2
  { b with
    touched := true
    totalMessages := b.totalMessages + 1
    prices := if recorded then b.prices ++ [(timestamp, change.price)] else b.prices }

/-- The common body of the handlers of order messages. -/
def handleOrder (stockLocate : UInt16) (op : Op) (timestamp : UInt64) (b : BenchmarkOrderBook) :
    Except Fault BenchmarkOrderBook :=
  if stockLocate = b.targetStockLocate then do
    let (change, book) ← b.orderBook.apply op
    return handleChange change timestamp { b with orderBook := book }
  else .ok b

/-- `C` ends the feed, `Q` and `M` begin and end market hours. -/
def handleSystemEvent (msg : SystemEvent) (b : BenchmarkOrderBook) : Except Fault BenchmarkOrderBook :=
  if msg.eventCode = 'C'.toUInt8 then
    .ok { b with touched := true, lastMessage := true, totalMessages := b.totalMessages + 1 }
  else if msg.eventCode = 'Q'.toUInt8 then .ok { b with recordPrices := true, touched := true }
  else if msg.eventCode = 'M'.toUInt8 then .ok { b with recordPrices := false, touched := true }
  else .ok b

/-- NVDA gives the book its code. -/
def handleStockDirectory (msg : StockDirectory) (b : BenchmarkOrderBook) :
    Except Fault BenchmarkOrderBook :=
  if msg.stock.toList = nvdaSymbol then
    .ok { b with
      targetStockLocate := msg.stockLocate
      touched := true
      totalMessages := b.totalMessages + 1 }
  else .ok b

/-- `handle(const ITCH::AddOrderNoMpid&)`, and so on for the other order messages. -/
def handleAddOrderNoMpid (msg : AddOrderNoMpid) :
    BenchmarkOrderBook → Except Fault BenchmarkOrderBook :=
  handleOrder msg.stockLocate
    (.addOrder msg.orderReferenceNumber ⟨msg.buySell⟩ msg.shares msg.price) msg.timestamp

def handleAddOrderMpid (msg : AddOrderMpid) : BenchmarkOrderBook → Except Fault BenchmarkOrderBook :=
  handleOrder msg.stockLocate
    (.addOrder msg.orderReferenceNumber ⟨msg.buySell⟩ msg.shares msg.price) msg.timestamp

def handleOrderExecuted (msg : OrderExecuted) :
    BenchmarkOrderBook → Except Fault BenchmarkOrderBook :=
  handleOrder msg.stockLocate (.executeOrder msg.orderReferenceNumber msg.executedShares) msg.timestamp

def handleOrderExecutedPrice (msg : OrderExecutedPrice) :
    BenchmarkOrderBook → Except Fault BenchmarkOrderBook :=
  handleOrder msg.stockLocate (.executeOrder msg.orderReferenceNumber msg.executedShares) msg.timestamp

def handleOrderCancel (msg : OrderCancel) : BenchmarkOrderBook → Except Fault BenchmarkOrderBook :=
  handleOrder msg.stockLocate (.cancelOrder msg.orderReferenceNumber msg.cancelledShares) msg.timestamp

def handleOrderDelete (msg : OrderDelete) : BenchmarkOrderBook → Except Fault BenchmarkOrderBook :=
  handleOrder msg.stockLocate (.deleteOrder msg.orderReferenceNumber) msg.timestamp

def handleOrderReplace (msg : OrderReplace) : BenchmarkOrderBook → Except Fault BenchmarkOrderBook :=
  handleOrder msg.stockLocate
    (.replaceOrder msg.orderReferenceNumber msg.newReferenceNumber msg.shares msg.price) msg.timestamp

/-- The overloads of `handle`; a message without one is ignored. -/
def handle : Message → BenchmarkOrderBook → Except Fault BenchmarkOrderBook
  | ⟨.systemEvent, msg⟩ => handleSystemEvent msg
  | ⟨.stockDirectory, msg⟩ => handleStockDirectory msg
  | ⟨.addOrderNoMpid, msg⟩ => handleAddOrderNoMpid msg
  | ⟨.addOrderMpid, msg⟩ => handleAddOrderMpid msg
  | ⟨.orderExecuted, msg⟩ => handleOrderExecuted msg
  | ⟨.orderExecutedPrice, msg⟩ => handleOrderExecutedPrice msg
  | ⟨.orderCancel, msg⟩ => handleOrderCancel msg
  | ⟨.orderDelete, msg⟩ => handleOrderDelete msg
  | ⟨.orderReplace, msg⟩ => handleOrderReplace msg
  | _ => .ok

/-- `handle_before`, `handle` and `handle_after` around one message. -/
def deliver (b : BenchmarkOrderBook) (d : Timed) : Except Fault BenchmarkOrderBook := do
  let b ← handle d.message (b.handleBefore d.before)
  b.handleAfter d.after

end BenchmarkOrderBook

/-! ## What a message does -/

/-- The event codes of the market hours. -/
def hoursOf (eventCode : UInt8) : Option Bool :=
  if eventCode = 'Q'.toUInt8 then some true
  else if eventCode = 'M'.toUInt8 then some false
  else none

namespace Message

/-- The timestamp of a message. -/
def timestamp (m : Message) : UInt64 := m.1.timestamp m.2

/-- The market hours begin or end. -/
def marketHours? : Message → Option Bool
  | ⟨.systemEvent, msg⟩ => hoursOf msg.eventCode
  | _ => none

theorem stock_of_order {m : Message} {op : Op} (h : m.order? = some op) : m.stock? = none := by
  obtain ⟨ty, msg⟩ := m
  cases ty <;> first | rfl | cases h

end Message

namespace BenchmarkOrderBook

/-- The kinds of messages. -/
inductive Kind (m : Message) : Prop
  | order (op : Op) (horder : m.order? = some op) (hhours : m.marketHours? = none)
      (hrun : ∀ b, handle m b = b.handleOrder m.stockLocate op m.timestamp)
  | directory (msg : StockDirectory) (horder : m.order? = none)
      (hstock : m.stock? = some msg.stock.toList) (hlocate : msg.stockLocate = m.stockLocate)
      (hhours : m.marketHours? = none) (hrun : ∀ b, handle m b = b.handleStockDirectory msg)
  | event (msg : SystemEvent) (hm : m = ⟨.systemEvent, msg⟩)
  | ignored (horder : m.order? = none) (hstock : m.stock? = none) (hhours : m.marketHours? = none)
      (hrun : ∀ b, handle m b = .ok b)

theorem kind (m : Message) : Kind m := by
  obtain ⟨ty, msg⟩ := m
  cases ty with
  | addOrderNoMpid | addOrderMpid | orderExecuted | orderExecutedPrice | orderCancel | orderDelete
  | orderReplace => exact .order _ rfl rfl fun _ => rfl
  | stockDirectory => exact .directory msg rfl rfl rfl rfl fun _ => rfl
  | systemEvent => exact .event msg rfl
  | tradingAction | regSho | marketParticipantPos | mwcbDeclineLevel | mwcbStatus
  | ipoQuotationPeriodUpd | luldAuctionCollar | operationalHalt | tradeMessageNonCross
  | tradeMessageCross | brokenTrade | noii | directListingCapitalRaise =>
    exact .ignored rfl rfl rfl fun _ => rfl

/-- The members that the clock has no part in. -/
structure Same (b b' : BenchmarkOrderBook) : Prop where
  targetStockLocate : b'.targetStockLocate = b.targetStockLocate
  orderBook : b'.orderBook = b.orderBook
  recordPrices : b'.recordPrices = b.recordPrices
  prices : b'.prices = b.prices

/-- What a message has done to the book and the prices. -/
inductive Heard (b : BenchmarkOrderBook) (m : Message) (b' : BenchmarkOrderBook) : Prop
  | traded (op : Op) (change : BestLvlChange) (horder : m.order? = some op)
      (hlocate : m.stockLocate = b.targetStockLocate)
      (happly : b.orderBook.apply op = .ok (change, b'.orderBook)) (hhours : m.marketHours? = none)
      (htarget : b'.targetStockLocate = b.targetStockLocate)
      (hrecord : b'.recordPrices = b.recordPrices)
      (hprices : b'.prices = (handleChange change m.timestamp b).prices)
  | listed (hstock : m.stock? = some nvdaSymbol) (hhours : m.marketHours? = none)
      (hsame : Same { b with targetStockLocate := m.stockLocate } b')
  | quiet (horder : ∀ op, m.order? = some op → m.stockLocate ≠ b.targetStockLocate)
      (hstock : m.stock? ≠ some nvdaSymbol)
      (hsame : Same { b with recordPrices := m.marketHours?.getD b.recordPrices } b')

theorem Heard.other {b b' : BenchmarkOrderBook} {m : Message} (h : Heard b m b')
    (horder : ∀ op, m.order? = some op → m.stockLocate ≠ b.targetStockLocate)
    (hstock : m.stock? ≠ some nvdaSymbol) :
    b'.targetStockLocate = b.targetStockLocate ∧ b'.orderBook = b.orderBook := by
  cases h with
  | traded op change hop hlocate => exact absurd hlocate (horder op hop)
  | listed hnvda => exact absurd hnvda hstock
  | quiet _ _ hsame => exact ⟨hsame.targetStockLocate, hsame.orderBook⟩

section Step
variable {b c : BenchmarkOrderBook}

theorem handleAfter_ok (hwf : b.orderBook.WellFormed) (now : UInt64) :
    ∃ b', b.handleAfter now = .ok b' ∧ Same b b' := by
  rw [handleAfter, (OrderBook.best_eq_top hwf).1]
  exact ⟨_, rfl, rfl, rfl, rfl, rfl⟩

theorem handleSystemEvent_ok (msg : SystemEvent) : ∃ c, b.handleSystemEvent msg = .ok c ∧
    Same { b with recordPrices := (hoursOf msg.eventCode).getD b.recordPrices } c := by
  have hC : hoursOf 'C'.toUInt8 = none := by decide
  unfold handleSystemEvent
  by_cases hlast : msg.eventCode = 'C'.toUInt8
  · rw [if_pos hlast, hlast, hC]
    exact ⟨_, rfl, rfl, rfl, rfl, rfl⟩
  · rw [if_neg hlast]
    unfold hoursOf
    split
    · exact ⟨_, rfl, rfl, rfl, rfl, rfl⟩
    · split
      · exact ⟨_, rfl, rfl, rfl, rfl, rfl⟩
      · exact ⟨_, rfl, rfl, rfl, rfl, rfl⟩

theorem deliver_same {d : Timed} (hwf : b.orderBook.WellFormed)
    (hc : handle d.message (b.handleBefore d.before) = .ok c) (hbook : c.orderBook = b.orderBook) :
    ∃ b', b.deliver d = .ok b' ∧ Same c b' := by
  rw [deliver, hc]
  exact handleAfter_ok (hbook.symm ▸ hwf) d.after

/-- **A message is heard**, unless the book refuses its operation. -/
theorem deliver_heard (hwf : b.orderBook.WellFormed) (d : Timed) :
    (∃ b', b.deliver d = .ok b' ∧ Heard b d.message b') ∨
    ∃ op fault, d.message.order? = some op ∧ d.message.stockLocate = b.targetStockLocate ∧
      b.orderBook.apply op = .error fault ∧ b.deliver d = .error fault := by
  have hignored : handle d.message (b.handleBefore d.before) = .ok (b.handleBefore d.before) →
      d.message.marketHours? = none →
      (∀ op, d.message.order? = some op → d.message.stockLocate ≠ b.targetStockLocate) →
      d.message.stock? ≠ some nvdaSymbol → ∃ b', b.deliver d = .ok b' ∧ Heard b d.message b' := by
    intro hrun hhours horder hstock
    obtain ⟨b', hb', hsame⟩ := deliver_same hwf hrun rfl
    refine ⟨b', hb', .quiet horder hstock ?_⟩
    rw [hhours]
    exact ⟨hsame.1, hsame.2, hsame.3, hsame.4⟩
  cases kind d.message with
  | order op horder hhours hrun =>
    have hstock : d.message.stock? ≠ some nvdaSymbol := by rw [Message.stock_of_order horder]; simp
    by_cases hlocate : d.message.stockLocate = b.targetStockLocate
    · have hhandle : handle d.message (b.handleBefore d.before) =
          b.orderBook.apply op >>= fun r => .ok (handleChange r.1 d.message.timestamp
            { b.handleBefore d.before with orderBook := r.2 }) := by
        rw [hrun]
        exact if_pos hlocate
      cases happly : b.orderBook.apply op with
      | error fault =>
        refine .inr ⟨op, fault, horder, hlocate, happly, ?_⟩
        rw [deliver, hhandle, happly]
        rfl
      | ok r =>
        obtain ⟨change, book⟩ := r
        rw [happly] at hhandle
        have hwf' : book.WellFormed := (OrderBook.apply_announces hwf happly).1
        obtain ⟨b', hb', hsame⟩ := @handleAfter_ok (handleChange change d.message.timestamp
          { b.handleBefore d.before with orderBook := book }) hwf' d.after
        have hbook : b'.orderBook = book := hsame.orderBook
        refine .inl ⟨b', ?_, .traded op change horder hlocate (hbook.symm ▸ happly) hhours
          hsame.targetStockLocate hsame.recordPrices hsame.prices⟩
        rw [deliver, hhandle]
        exact hb'
    · refine .inl (hignored ?_ hhours (fun _ _ => hlocate) hstock)
      rw [hrun]
      exact if_neg hlocate
  | directory msg horder hstock hlocate hhours hrun =>
    by_cases hnvda : msg.stock.toList = nvdaSymbol
    · have hhandle := hrun (b.handleBefore d.before)
      rw [handleStockDirectory, if_pos hnvda] at hhandle
      obtain ⟨b', hb', hsame⟩ := deliver_same hwf hhandle rfl
      refine .inl ⟨b', hb', .listed (hnvda ▸ hstock) hhours ?_⟩
      rw [← hlocate]
      exact ⟨hsame.1, hsame.2, hsame.3, hsame.4⟩
    · refine .inl (hignored ?_ hhours (fun op hop => ?_) ?_)
      · rw [hrun, handleStockDirectory, if_neg hnvda]
      · rw [horder] at hop
        cases hop
      · rw [hstock]
        exact fun e => hnvda (Option.some.inj e)
  | event msg hm =>
    obtain ⟨c, hc, hhours⟩ := @handleSystemEvent_ok (b.handleBefore d.before) msg
    obtain ⟨b', hb', hsame⟩ := deliver_same hwf (c := c) (by rw [hm]; exact hc) hhours.orderBook
    refine .inl ⟨b', hb', .quiet (fun op hop => ?_) ?_ ?_⟩
    · rw [hm] at hop
      cases hop
    · rw [hm]
      exact fun e => by cases e
    · rw [hm]
      exact ⟨hsame.1.trans hhours.1, hsame.2.trans hhours.2, hsame.3.trans hhours.3,
        hsame.4.trans hhours.4⟩
  | ignored horder hstock hhours hrun =>
    refine .inl (hignored (hrun _) hhours (fun op hop => ?_) ?_)
    · rw [horder] at hop
      cases hop
    · rw [hstock]
      exact fun e => by cases e

end Step

end BenchmarkOrderBook

/-! ## The same book as the engine -/

/-- The feed gives NVDA the code `L` and nothing else that code, and no order has the code 65535. -/
structure ListsNvda (L : UInt16) (m : Message) : Prop where
  directory : ∀ stock, m.stock? = some stock → (stock = nvdaSymbol ↔ m.stockLocate = L)
  reserved : ∀ op, m.order? = some op → m.stockLocate ≠ 65535

/-- The benchmark has the book of `L`, and an empty one until it is listed. -/
inductive Measures (L : UInt16) (b : BenchmarkOrderBook) (h : Handler) : Prop
  | unlisted (htarget : b.targetStockLocate = 65535) (hbook : b.orderBook = OrderBook.empty)
      (hfree : h.locateToBook L = none)
  | listed (i : ℕ) (htarget : b.targetStockLocate = L) (hbound : h.locateToBook L = some i)
      (hbook : h.books[i]? = some b.orderBook)

section Measures
variable {L : UInt16} {b b' : BenchmarkOrderBook} {h h' : Handler} {m : Message}

theorem Measures.wellFormed (hm : Measures L b h) (hcur : Current h) : b.orderBook.WellFormed := by
  cases hm with
  | unlisted htarget hbook hfree => exact hbook ▸ OrderBook.empty_wellFormed
  | listed i htarget hbound hbook =>
    obtain ⟨book, hat, hpublished⟩ := hcur.bound L i hbound
    obtain rfl : b.orderBook = book := Option.some.inj (hbook.symm.trans hat)
    exact hpublished.1

theorem Measures.frame (hm : Measures L b h) (htarget : b'.targetStockLocate = b.targetStockLocate)
    (hbook : b'.orderBook = b.orderBook) (hlocate : h'.locateToBook L = h.locateToBook L)
    (hbooks : ∀ i, h.locateToBook L = some i → h'.books[i]? = h.books[i]?) : Measures L b' h' := by
  cases hm with
  | unlisted htarget₀ hbook₀ hfree =>
    exact .unlisted (htarget.trans htarget₀) (hbook.trans hbook₀) (hlocate.trans hfree)
  | listed i htarget₀ hbound hbook₀ =>
    exact .listed i (htarget.trans htarget₀) (hlocate.trans hbound)
      (by rw [hbooks i hbound, hbook₀, hbook])

theorem Measures.order (hm : Measures L b h) (hcur : Current h) (hlists : ListsNvda L m) {track : Bool}
    {op : Op} (horder : m.order? = some op) (hrun : h.handleOrder track m.stockLocate op = .ok h') :
    (∀ fault, m.stockLocate = b.targetStockLocate → b.orderBook.apply op ≠ .error fault) ∧
    ∀ b', b.Heard m b' → Measures L b' h' := by
  have hreserved := hlists.reserved op horder
  have hstock : m.stock? ≠ some nvdaSymbol := by rw [Message.stock_of_order horder]; simp
  have hframe : m.stockLocate ≠ b.targetStockLocate → h'.locateToBook L = h.locateToBook L →
      (∀ i, h.locateToBook L = some i → h'.books[i]? = h.books[i]?) →
      (∀ fault, m.stockLocate = b.targetStockLocate → b.orderBook.apply op ≠ .error fault) ∧
      ∀ b', b.Heard m b' → Measures L b' h' := by
    intro hother hlocate hbooks
    refine ⟨fun fault htarget => absurd htarget hother, fun b' hheard => ?_⟩
    obtain ⟨htarget, hbook⟩ := hheard.other (fun _ _ => hother) hstock
    exact hm.frame htarget hbook hlocate hbooks
  rcases handleOrder_eq_ok.mp hrun with
    ⟨hfree, rfl⟩ | ⟨i, book, book', change, ps, hbound, hat, happly, -, rfl⟩
  · refine hframe (fun htarget => ?_) rfl fun _ _ => rfl
    cases hm with
    | unlisted htarget₀ => exact hreserved (htarget.trans htarget₀)
    | listed i htarget₀ hbound =>
      rw [htarget.trans htarget₀, hbound] at hfree
      cases hfree
  · cases hm with
    | unlisted htarget hbook hfree =>
      refine hframe (htarget ▸ hreserved) rfl fun j hj => ?_
      rw [hfree] at hj
      cases hj
    | listed j htarget hbound' hbook =>
      by_cases hL : m.stockLocate = L
      · rw [hL] at hbound
        obtain rfl : i = j := Option.some.inj (hbound.symm.trans hbound')
        obtain rfl : book = b.orderBook := Option.some.inj (hat.symm.trans hbook)
        refine ⟨fun fault _ hfault => (by rw [happly] at hfault; cases hfault), fun b' hheard => ?_⟩
        cases hheard with
        | traded op' change' horder' hlocate happly' hhours htarget' =>
          obtain rfl : op = op' := Option.some.inj (horder.symm.trans horder')
          rw [happly] at happly'
          cases happly'
          exact .listed i (htarget'.trans htarget) hbound
            (List.getElem?_set_self (List.getElem?_eq_some_iff.mp hat).1)
        | listed hnvda => exact absurd hnvda hstock
        | quiet horder' => exact absurd (hL.trans htarget.symm) (horder' op horder)
      · refine hframe (htarget ▸ hL) rfl fun k hk => ?_
        have hik : i ≠ k := fun e => hL (hcur.distinct _ _ k (e ▸ hbound) hk)
        exact List.getElem?_set_ne hik

theorem Measures.directory (hm : Measures L b h) (hlists : ListsNvda L m) {cfg : InstrumentConfig}
    (hcfg : h.instruments.lookup nvdaSymbol = some cfg) {msg : StockDirectory} (horder : m.order? = none)
    (hstock : m.stock? = some msg.stock.toList) (hlocate : msg.stockLocate = m.stockLocate)
    (hlt : ∀ i, h.locateToBook L = some i → i < h.books.length)
    (hrun : h.handleStockDirectory msg = .ok h') (hheard : b.Heard m b') : Measures L b' h' := by
  have hcode := hlists.directory _ hstock
  cases hheard with
  | traded op change horder' => rw [horder] at horder'; cases horder'
  | listed hnvda hhours hsame =>
    have hsym : msg.stock.toList = nvdaSymbol := Option.some.inj (hstock.symm.trans hnvda)
    have hL : m.stockLocate = L := hcode.mp hsym
    rcases handleStockDirectory_eq_ok.mp hrun with ⟨hquiet, rfl⟩ | ⟨cfg', -, hfree, rfl⟩
    · rw [hsym, hcfg, hlocate, hL] at hquiet
      have hbound := hquiet.resolve_left (by simp)
      cases hm with
      | unlisted htarget hbook hfree => exact absurd hfree hbound
      | listed i htarget hbound' hbook =>
        exact .listed i (hsame.1.trans hL) hbound' (by rw [hbook, hsame.2])
    · rw [hlocate, hL] at hfree
      cases hm with
      | unlisted htarget hbook hfree' =>
        refine .listed h.books.length (hsame.1.trans hL) ?_ ?_
        · rw [hlocate, hL]
          exact Function.update_self ..
        · have hempty : b'.orderBook = OrderBook.empty := hsame.2.trans hbook
          rw [hempty]
          simp
      | listed i htarget hbound' hbook => rw [hbound'] at hfree; cases hfree
  | quiet horder' hstock' hsame =>
    have hother : msg.stockLocate ≠ L := by
      rw [hlocate]
      exact fun hL => hstock' (hstock.trans (congrArg some (hcode.mpr hL)))
    rcases handleStockDirectory_eq_ok.mp hrun with ⟨-, rfl⟩ | ⟨cfg', -, hfree, rfl⟩
    · exact hm.frame hsame.1 hsame.2 rfl fun _ _ => rfl
    · exact hm.frame hsame.1 hsame.2 (Function.update_of_ne (Ne.symm hother) _ _) fun i hi =>
        List.getElem?_append_left (hlt i hi)

/-- **One message**, for the engine and for the benchmark. -/
theorem Measures.deliver (hm : Measures L b h) (hcur : Current h) {d : Timed}
    (hlists : ListsNvda L d.message) {cfg : InstrumentConfig}
    (hcfg : h.instruments.lookup nvdaSymbol = some cfg) {tsc : UInt64}
    (hrun : Engine.deliver h ⟨tsc, d.message.1, d.message.2⟩ = .ok h') :
    ∃ b', b.deliver d = .ok b' ∧ Measures L b' h' := by
  have hbefore : Measures L b (h.handleBefore tsc) := hm.frame rfl rfl rfl fun _ _ => rfl
  have hcurBefore : Current (h.handleBefore tsc) := ⟨hcur.bound, hcur.unbound, hcur.distinct⟩
  have hheard := BenchmarkOrderBook.deliver_heard (hm.wellFormed hcur) d
  rcases deliver_kinds tsc d.message with ⟨op, horder, heq⟩ | ⟨msg, horder, hstock, hlocate, heq⟩ |
    ⟨horder, hstock, heq⟩
  · rw [heq] at hrun
    rcases hheard with ⟨b', hb', hheard⟩ | ⟨op', fault, horder', hlocate, hfault, -⟩
    · exact ⟨b', hb', (hbefore.order hcurBefore hlists horder hrun).2 b' hheard⟩
    · obtain rfl : op = op' := Option.some.inj (horder.symm.trans horder')
      exact absurd hfault ((hbefore.order hcurBefore hlists horder hrun).1 fault hlocate)
  · rw [heq] at hrun
    obtain ⟨b', hb', hheard⟩ := hheard.resolve_right fun ⟨op, _, hop, _⟩ => by
      rw [horder] at hop
      cases hop
    exact ⟨b', hb', hbefore.directory hlists hcfg horder hstock hlocate
      (fun i hi => hcur.lt_length hi) hrun hheard⟩
  · obtain ⟨g, hg, hsame, -, -⟩ := heq h
    rw [hrun] at hg
    cases hg
    obtain ⟨b', hb', hheard⟩ := hheard.resolve_right fun ⟨op, _, hop, _⟩ => by
      rw [horder] at hop
      cases hop
    obtain ⟨htarget, hbook⟩ := hheard.other (fun op hop => by rw [horder] at hop; cases hop)
      (by rw [hstock]; simp)
    exact ⟨b', hb', hm.frame htarget hbook (by rw [hsame.locateToBook]) fun i _ => by rw [hsame.books]⟩

end Measures

/-- **The benchmark measures the book of the engine**: on a feed in which NVDA has one code, which is
its own, the benchmark takes every message that the engine takes, and its book is the one that the
engine has for NVDA. -/
theorem benchmark_measures_book {instruments : List InstrumentConfig} {cfg : InstrumentConfig}
    (hcfg : configFor instruments nvdaSymbol = some cfg) {L : UInt16} {ds : List Timed}
    (hlists : ∀ d ∈ ds, ListsNvda L d.message) {clock : ℕ → UInt64} {t0 : UInt64} {h : Handler}
    (hrun : run deliver (.init t0 instruments) (Message.stamp clock (ds.map Timed.message)) = .ok h)
    (start : UInt64) : ∃ b, run BenchmarkOrderBook.deliver (.init start) ds = .ok b ∧ Measures L b h := by
  induction ds using List.reverseRecOn generalizing h with
  | nil =>
    cases hrun
    exact ⟨_, rfl, .unlisted rfl rfl rfl⟩
  | append_singleton ds d ih =>
    rw [List.map_append, List.map_singleton, Message.stamp_concat] at hrun
    obtain ⟨g, hg, hd⟩ := run_concat_ok hrun
    obtain ⟨b, hb, hm⟩ := ih (fun d' hd' => hlists d' (List.mem_append_left _ hd')) hg
    have hlookup := (run_routed hg).lookup nvdaSymbol
    obtain ⟨b', hb', hm'⟩ := hm.deliver (run_current hg) (hlists d (by simp))
      (hlookup.trans hcfg) hd
    exact ⟨b', (run_concat hb d).trans hb', hm'⟩

/-- NVDA is listed, and somebody bids for it. -/
theorem benchmark_measures_book_sample : ∃ h b,
    run deliver (.init 0 [nvda]) (Message.stamp (fun _ => 0) bidMessages) = .ok h ∧
    run BenchmarkOrderBook.deliver (.init 0) (bidMessages.map fun m => ⟨0, m, 0⟩) = .ok b ∧
    b.targetStockLocate = 9 ∧ h.books[0]? = some b.orderBook := by
  have hlists : ∀ d ∈ bidMessages.map fun m => Timed.mk 0 m 0, ListsNvda 9 d.message := by
    intro d hd
    obtain ⟨m, hm, rfl⟩ := List.mem_map.mp hd
    rcases List.mem_cons.mp hm with rfl | hm
    · exact ⟨fun stock hstock => (by cases hstock; decide), fun op hop => (by cases hop)⟩
    · obtain rfl := List.mem_singleton.mp hm
      exact ⟨fun stock hstock => (by cases hstock), fun op hop => (by decide)⟩
  obtain ⟨h, hrun, hbound⟩ : ∃ h, run deliver (.init 0 [nvda])
      (Message.stamp (fun _ => 0) bidMessages) = .ok h ∧ h.locateToBook 9 = some 0 := ⟨_, rfl, rfl⟩
  obtain ⟨b, hb, hm⟩ := benchmark_measures_book rfl hlists (h := h) hrun 0
  cases hm with
  | unlisted htarget hbook hfree => rw [hbound] at hfree; cases hfree
  | listed i htarget hbound' hbook =>
    obtain rfl : 0 = i := Option.some.inj (hbound.symm.trans hbound')
    exact ⟨h, b, hrun, hb, htarget, hbook⟩

/-! ## The prices -/

section Prices
variable {b b' c : BenchmarkOrderBook} {m : Message}

/-- What a message does to the prices while they are recorded. -/
inductive Priced (b : BenchmarkOrderBook) (m : Message) (b' : BenchmarkOrderBook) : Prop
  | unmoved (hprices : b'.prices = b.prices)
      (htop : b'.orderBook.top Side.Bid = b.orderBook.top Side.Bid)
  | known (hprices : b'.prices = b.prices)
      (hlast : b.prices.getLast?.map Prod.snd = some (b'.orderBook.top Side.Bid).price)
  | added (hprices : b'.prices = b.prices ++ [(m.timestamp, (b'.orderBook.top Side.Bid).price)])
      (hlast : b.prices.getLast?.map Prod.snd ≠ some (b'.orderBook.top Side.Bid).price)

theorem priced_of_heard (hwf : b.orderBook.WellFormed) (hne : b.prices ≠ [])
    (hrecord : b.recordPrices = true) (hheard : b.Heard m b') : Priced b m b' := by
  cases hheard with
  | listed hstock hhours hsame => exact .unmoved hsame.prices (by rw [hsame.orderBook])
  | quiet horder hstock hsame => exact .unmoved hsame.prices (by rw [hsame.orderBook])
  | traded op change horder hlocate happly hhours htarget hrecord' hprices =>
    obtain ⟨-, side, hann⟩ := OrderBook.apply_announces hwf happly
    have htop := hann.top_eq Side.Bid (Or.inl rfl)
    obtain ⟨last, hlast⟩ := Option.ne_none_iff_exists'.mp (mt List.getLast?_eq_none_iff.mp hne)
    rw [BenchmarkOrderBook.handleChange, hlast, hrecord] at hprices
    by_cases hside : change.side = Side.Bid
    · rw [if_pos hside] at htop
      by_cases hprice : change.price = last.2
      · refine .known (by simpa [hside, hprice] using hprices) ?_
        rw [hlast, htop, Option.map_some, hprice]
      · refine .added ?_ ?_
        · rw [htop]
          simpa [hside, hprice] using hprices
        · rw [hlast, htop, Option.map_some]
          exact fun e => hprice (Option.some.inj e).symm
    · rw [if_neg hside] at htop
      exact .unmoved (by simpa [hside] using hprices) htop

theorem paused_of_heard (hrecord : b.recordPrices = false) (hheard : b.Heard m b') :
    b'.prices = b.prices := by
  cases hheard with
  | listed hstock hhours hsame => exact hsame.prices
  | quiet horder hstock hsame => exact hsame.prices
  | traded op change horder hlocate happly hhours htarget hrecord' hprices =>
    rw [hprices, BenchmarkOrderBook.handleChange, hrecord]
    cases b.prices.getLast? <;> simp

/-- What holds of every benchmark. -/
structure Kept (b : BenchmarkOrderBook) : Prop where
  wellFormed : b.orderBook.WellFormed
  ne_nil : b.prices ≠ []
  chain : b.prices.IsChain fun x y => x.2 ≠ y.2

theorem Kept.wellFormed_after (hkept : Kept b) (hheard : b.Heard m b') : b'.orderBook.WellFormed := by
  cases hheard with
  | traded op change horder hlocate happly =>
    exact (OrderBook.apply_announces hkept.wellFormed happly).1
  | listed hstock hhours hsame => exact hsame.orderBook.symm ▸ hkept.wellFormed
  | quiet horder hstock hsame => exact hsame.orderBook.symm ▸ hkept.wellFormed

theorem Kept.heard (hkept : Kept b) (hheard : b.Heard m b') : Kept b' := by
  have hsame : b'.prices = b.prices → b'.prices ≠ [] ∧ b'.prices.IsChain fun x y => x.2 ≠ y.2 := by
    intro heq
    rw [heq]
    exact ⟨hkept.ne_nil, hkept.chain⟩
  suffices hall : b'.prices ≠ [] ∧ b'.prices.IsChain fun x y => x.2 ≠ y.2 from
    ⟨hkept.wellFormed_after hheard, hall.1, hall.2⟩
  cases hrecord : b.recordPrices with
  | false => exact hsame (paused_of_heard hrecord hheard)
  | true =>
    cases priced_of_heard hkept.wellFormed hkept.ne_nil hrecord hheard with
    | unmoved hprices => exact hsame hprices
    | known hprices => exact hsame hprices
    | added hprices hlast =>
      rw [hprices]
      refine ⟨by simp, List.isChain_append.mpr ⟨hkept.chain, .singleton _, fun x hx y hy => ?_⟩⟩
      cases hy
      intro heq
      rw [Option.mem_def.mp hx] at hlast
      exact hlast (congrArg some heq)

/-- From `b` to `c` the prices `new` were added; they are best bids, and the last one is still the best,
unless the best bid has not moved. -/
structure Followed (b : BenchmarkOrderBook) (ds : List Timed) (c : BenchmarkOrderBook)
    (new : List (UInt64 × UInt32)) : Prop where
  prices : c.prices = b.prices ++ new
  last : (new = [] ∧ c.orderBook.top Side.Bid = b.orderBook.top Side.Bid) ∨
    c.prices.getLast?.map Prod.snd = some (c.orderBook.top Side.Bid).price
  shown : ∀ x ∈ new, ∃ ps d qs g, ds = ps ++ d :: qs ∧
    run BenchmarkOrderBook.deliver b (ps ++ [d]) = .ok g ∧
    x = (d.message.timestamp, (g.orderBook.top Side.Bid).price)

theorem Followed.heard {ds : List Timed} {d : Timed} {new : List (UInt64 × UInt32)}
    (h : Followed b ds c new) (hrun : run BenchmarkOrderBook.deliver b (ds ++ [d]) = .ok b')
    (hpriced : Priced c d.message b') : ∃ new', Followed b (ds ++ [d]) b' new' := by
  have hshown : ∀ x ∈ new, ∃ ps e qs g, ds ++ [d] = ps ++ e :: qs ∧
      run BenchmarkOrderBook.deliver b (ps ++ [e]) = .ok g ∧
      x = (e.message.timestamp, (g.orderBook.top Side.Bid).price) := by
    intro x hx
    obtain ⟨ps, e, qs, g, heq, hg, hxe⟩ := h.shown x hx
    exact ⟨ps, e, qs ++ [d], g, by rw [heq, List.append_assoc]; rfl, hg, hxe⟩
  cases hpriced with
  | unmoved hprices htop =>
    refine ⟨new, hprices.trans h.prices, ?_, hshown⟩
    rw [hprices, htop]
    exact h.last
  | known hprices hlast => exact ⟨new, hprices.trans h.prices, .inr (by rw [hprices, hlast]), hshown⟩
  | added hprices hlast =>
    refine ⟨new ++ [(d.message.timestamp, (b'.orderBook.top Side.Bid).price)], ?_, ?_, fun x hx => ?_⟩
    · rw [hprices, h.prices, List.append_assoc]
    · rw [hprices]
      exact .inr (by simp)
    · rcases List.mem_append.mp hx with hx | hx
      · exact hshown x hx
      · exact ⟨ds, d, [], b', rfl, hrun, List.mem_singleton.mp hx⟩

end Prices

end ItchIngestion.Engine
