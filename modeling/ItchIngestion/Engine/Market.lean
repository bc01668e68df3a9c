import ItchIngestion.Book.Aggregation
import ItchIngestion.Engine.AfterStop
import ItchIngestion.Engine.TopOfBook

/-! # The market behind the feed

What the engine is for, without books, levels and queues: `Market` holds the live orders under each
locate code that stands for a configured symbol, `hear` is what a message says of them, and the best
level of a side is the best price at which a live order rests, with everything that rests there
(`BestOf`). The handler refines it: where the feed keeps its promises (`ValidFeed`), no message stops the
engine and the levels that it has published are the best ones of the market (`market_followed`).
-/
namespace ItchIngestion.Engine
open Library ITCH OB
set_option autoImplicit false

/-! ## The market -/

/-- The orders that are live behind an operation. -/
def liveAfter (m : Orders) : Op → Orders
  | .addOrder orderId side qty price => m.emplace orderId ⟨qty, price, side⟩
  | .cancelOrder orderId qty | .executeOrder orderId qty =>
    (m.lookup orderId).elim m fun order => m.reduce orderId order qty
  | .replaceOrder orderId newOrderId qty price => (m.lookup orderId).elim m fun order =>
    Orders.emplace (m.erase orderId) newOrderId ⟨qty, price, order.side⟩
  | .deleteOrder orderId => m.erase orderId

theorem liveAfter_eq {m m' : Orders} {op : Op} (h : OrderBook.OrdersStep m op m') : liveAfter m op = m' := by
  cases h with
  | addOrder | deleteOrder => rfl
  | cancelOrder hfind | executeOrder hfind | replaceOrder _ _ _ hfind => rw [liveAfter, hfind]; rfl

namespace Message

def stockLocate (m : Message) : UInt16 := m.1.stockLocate m.2

/-- The operation that an order message asks for. -/
def order? : Message → Option Op
  | ⟨.addOrderNoMpid, m⟩ => some (.addOrder m.orderReferenceNumber ⟨m.buySell⟩ m.shares m.price)
  | ⟨.addOrderMpid, m⟩ => some (.addOrder m.orderReferenceNumber ⟨m.buySell⟩ m.shares m.price)
  | ⟨.orderExecuted, m⟩ => some (.executeOrder m.orderReferenceNumber m.executedShares)
  | ⟨.orderExecutedPrice, m⟩ => some (.executeOrder m.orderReferenceNumber m.executedShares)
  | ⟨.orderCancel, m⟩ => some (.cancelOrder m.orderReferenceNumber m.cancelledShares)
  | ⟨.orderDelete, m⟩ => some (.deleteOrder m.orderReferenceNumber)
  | ⟨.orderReplace, m⟩ =>
    some (.replaceOrder m.orderReferenceNumber m.newReferenceNumber m.shares m.price)
  | _ => none

/-- The stock that a directory message names. -/
def stock? : Message → Option (List UInt8)
  | ⟨.stockDirectory, m⟩ => some m.stock.toList
  | _ => none

end Message

/-- The live orders under a locate code, if it stands for a configured symbol. -/
abbrev Market := UInt16 → Option Orders

namespace Market

/-- Before the first message nothing is listed. -/
def closed : Market := fun _ => none

/-- An operation on the orders of a listed stock. -/
def trade (m : Market) (L : UInt16) (op : Op) : Market :=
  Function.update m L ((m L).map fun orders => liveAfter orders op)

/-- A configured stock is listed once, without orders. -/
def list (instruments : List InstrumentConfig) (m : Market) (L : UInt16) (stock : List UInt8) : Market :=
  if (configFor instruments stock).isSome ∧ (m L).isNone then Function.update m L (some ∅) else m

/-- What a message says of the market. -/
def hear (instruments : List InstrumentConfig) (m : Market) (msg : Message) : Market :=
  match msg.order?, msg.stock? with
  | some op, _ => m.trade msg.stockLocate op
  | none, some stock => m.list instruments msg.stockLocate stock
  | none, none => m

/-- The market that the messages describe. -/
def after (instruments : List InstrumentConfig) (ms : List Message) : Market :=
  ms.foldl (hear instruments) closed

/-- A best level that is right for a side: the best one of the live orders, and none as long as the symbol
is not listed. -/
def Shows (m : Market) (L : UInt16) (S : Side) (level : Level) : Prop :=
  (m L).elim (level = ⟨0, 0⟩) fun orders => OrderBook.BestOf orders S level

/-- The promise of the feed for one message: an operation on the orders of a configured symbol is valid,
and never as many as `2 ^ 32` of them are live. -/
def Sound (m : Market) (msg : Message) : Prop :=
  ∀ op orders, msg.order? = some op → m msg.stockLocate = some orders →
    op.Valid orders ∧ size (liveAfter orders op) < 2 ^ 32

/-- Every message keeps the promise of the feed, in the market as it is then. -/
def ValidFeed (instruments : List InstrumentConfig) : Market → List Message → Prop
  | _, [] => True
  | m, msg :: ms => m.Sound msg ∧ ValidFeed instruments (m.hear instruments msg) ms

variable {instruments : List InstrumentConfig}

theorem validFeed_append {m : Market} {ms ms' : List Message} : ValidFeed instruments m (ms ++ ms') ↔
    ValidFeed instruments m ms ∧ ValidFeed instruments (ms.foldl (hear instruments) m) ms' := by
  induction ms generalizing m with
  | nil => simp [ValidFeed]
  | cons msg ms ih => simp [ValidFeed, ih, and_assoc]

theorem after_concat (ms : List Message) (msg : Message) :
    after instruments (ms ++ [msg]) = (after instruments ms).hear instruments msg := by
  rw [after, List.foldl_append]
  rfl

end Market

/-! ## What the handler makes of a message -/

/-- The operation is an addition. -/
def adds : Op → Bool
  | .addOrder .. => true
  | _ => false

theorem deliver_kinds (tsc : UInt64) (m : Message) :
    (∃ op, m.order? = some op ∧ ∀ h, deliver h ⟨tsc, m.1, m.2⟩ =
      (h.handleBefore tsc).handleOrder (adds op) m.stockLocate op) ∨
    (∃ msg : StockDirectory, m.order? = none ∧ m.stock? = some msg.stock.toList ∧
      msg.stockLocate = m.stockLocate ∧ ∀ h, deliver h ⟨tsc, m.1, m.2⟩ =
        (h.handleBefore tsc).handleStockDirectory msg) ∨
    (m.order? = none ∧ m.stock? = none ∧ ∀ h, ∃ h', deliver h ⟨tsc, m.1, m.2⟩ = .ok h' ∧
      SameBooks h h' ∧ h'.instruments = h.instruments ∧ h'.maxOrders = h.maxOrders) := by
  obtain ⟨ty, msg⟩ := m
  cases ty with
  | addOrderNoMpid | addOrderMpid | orderExecuted | orderExecutedPrice | orderCancel | orderDelete
  | orderReplace => exact .inl ⟨_, rfl, fun _ => rfl⟩
  | stockDirectory => exact .inr (.inl ⟨msg, rfl, rfl, rfl, fun _ => rfl⟩)
  | systemEvent =>
    refine .inr (.inr ⟨rfl, rfl, fun h => ?_⟩)
    rcases handleSystemEvent_eq (h.handleBefore tsc) msg with ⟨-, heq⟩ | ⟨-, b, heq⟩
    · exact ⟨_, heq, ⟨rfl, rfl, rfl⟩, rfl, rfl⟩
    · exact ⟨_, heq, ⟨rfl, rfl, rfl⟩, rfl, rfl⟩
  | tradingAction | regSho | marketParticipantPos | mwcbDeclineLevel | mwcbStatus
  | ipoQuotationPeriodUpd | luldAuctionCollar | operationalHalt | tradeMessageNonCross
  | tradeMessageCross | brokenTrade | noii | directListingCapitalRaise =>
    exact .inr (.inr ⟨rfl, rfl, fun h => ⟨_, rfl, ⟨rfl, rfl, rfl⟩, rfl, rfl⟩⟩)

theorem deliver_of_order {m : Message} {op : Op} (horder : m.order? = some op) (h : Handler)
    (tsc : UInt64) : deliver h ⟨tsc, m.1, m.2⟩ =
      (h.handleBefore tsc).handleOrder (adds op) m.stockLocate op := by
  rcases deliver_kinds tsc m with ⟨op', horder', heq⟩ | ⟨_, hnone, -⟩ | ⟨hnone, -⟩
  · obtain rfl : op = op' := Option.some.inj (horder.symm.trans horder')
    exact heq h
  · rw [hnone] at horder
    cases horder
  · rw [hnone] at horder
    cases horder

/-! ## The refinement -/

/-- The handler shows the market: a book under each code that is listed, with its live orders. -/
structure Mirrors (instruments : List InstrumentConfig) (h : Handler) (m : Market) : Prop where
  current : Current h
  lookup : ∀ sym, h.instruments.lookup sym = configFor instruments sym
  closed : ∀ L, h.locateToBook L = none → m L = none
  listed : ∀ L i, h.locateToBook L = some i →
    ∃ book, h.books[i]? = some book ∧ book.Aggregates ∧ m L = some book.ordersMap
  queued : ∀ L i, h.locateToBook L = some i → ∃ q, h.locateToQueue L = some q

section Refinement
variable {instruments : List InstrumentConfig} {h h' : Handler} {m : Market} {tsc : UInt64} {msg : Message}

theorem init_mirrors (t0 : UInt64) : Mirrors instruments (.init t0 instruments) .closed where
  current := init_current t0 instruments
  lookup := lookup_init t0
  closed _ _ := rfl
  listed _ _ hL := by cases hL
  queued _ _ hL := by cases hL

theorem Mirrors.unchanged (hm : Mirrors instruments h m) (hcur : Current h') (hsame : SameBooks h h')
    (hinstruments : h'.instruments = h.instruments) : Mirrors instruments h' m where
  current := hcur
  lookup := hinstruments ▸ hm.lookup
  closed L hL := hm.closed L (hsame.locateToBook ▸ hL)
  listed L i hL := by
    rw [hsame.books]
    exact hm.listed L i (hsame.locateToBook ▸ hL)
  queued L i hL := by
    rw [hsame.locateToQueue]
    exact hm.queued L i (hsame.locateToBook ▸ hL)

theorem Mirrors.trade (hm : Mirrors instruments h m) (track : Bool) {L : UInt16} {op : Op}
    (hsound : ∀ orders, m L = some orders → op.Valid orders ∧ size (liveAfter orders op) < 2 ^ 32) :
    ∃ h', h.handleOrder track L op = .ok h' ∧
      (Current h' → Mirrors instruments h' (m.trade L op)) := by
  have hother : ∀ L', L' ≠ L → m.trade L op L' = m L' := fun L' hne => Function.update_of_ne hne _ _
  have hself : m.trade L op L = (m L).map fun orders => liveAfter orders op := Function.update_self ..
  cases hL : h.locateToBook L with
  | none =>
    have hsame : m.trade L op = m := by
      funext L'
      by_cases hL' : L' = L
      · rw [hL', hself, hm.closed L hL]
        rfl
      · exact hother L' hL'
    exact ⟨h, handleOrder_eq_ok.mpr (.inl ⟨hL, rfl⟩), fun _ => by rw [hsame]; exact hm⟩
  | some i =>
    obtain ⟨book, hbook, haggregates, horders⟩ := hm.listed L i hL
    obtain ⟨hvalid, hfew⟩ := hsound _ horders
    obtain ⟨change, book', happly, hkeep⟩ := OrderBook.apply_valid haggregates hvalid
    have hafter : liveAfter book.ordersMap op = book'.ordersMap := liveAfter_eq (OrderBook.apply_orders happly)
    obtain ⟨q, hq⟩ := hm.queued L i hL
    obtain ⟨ps, hps⟩ : ∃ ps, Announcement h.t0 L (h.locateToQueue L) change ps := by
      by_cases hside : change.side = Side.None
      · exact ⟨[], .inl ⟨hside, rfl⟩⟩
      · exact ⟨_, .inr ⟨hside, q, hq, rfl⟩⟩
    refine ⟨_, handleOrder_eq_ok.mpr (.inr ⟨i, book, book', change, ps, hL, hbook, happly, hps, rfl⟩),
      fun hcur => ⟨hcur, hm.lookup, fun L' hfree => ?_, fun L' j hbound => ?_, hm.queued⟩⟩
    · have hne : L' ≠ L := fun e => by
        rw [e] at hfree
        rw [hL] at hfree
        cases hfree
      rw [hother L' hne, hm.closed L' hfree]
    · by_cases hL' : L' = L
      · subst hL'
        obtain rfl : i = j := Option.some.inj (hL.symm.trans hbound)
        refine ⟨book', List.getElem?_set_self (hm.current.lt_length hL), hkeep (hafter ▸ hfew), ?_⟩
        rw [hself, horders, Option.map_some, hafter]
      · have hij : i ≠ j := fun e => hL' (hm.current.distinct L' L j hbound (e ▸ hL))
        obtain ⟨other, hat, hothers⟩ := hm.listed L' j hbound
        rw [hother L' hL']
        exact ⟨other, (List.getElem?_set_ne hij).trans hat, hothers⟩

theorem Mirrors.list (hm : Mirrors instruments h m) (hqueues : ∀ cfg ∈ instruments, cfg.queue ≠ none)
    (msg : StockDirectory) : ∃ h', h.handleStockDirectory msg = .ok h' ∧
      (Current h' → Mirrors instruments h' (m.list instruments msg.stockLocate msg.stock.toList)) := by
  unfold Market.list
  rw [← hm.lookup]
  cases hcfg : h.instruments.lookup msg.stock.toList with
  | none =>
    refine ⟨h, handleStockDirectory_eq_ok.mpr (.inl ⟨.inl hcfg, rfl⟩), fun _ => ?_⟩
    rw [if_neg fun e => Bool.false_ne_true e.1]
    exact hm
  | some cfg =>
    cases hL : h.locateToBook msg.stockLocate with
    | some i =>
      obtain ⟨book, -, -, horders⟩ := hm.listed _ i hL
      refine ⟨h, handleStockDirectory_eq_ok.mpr (.inl ⟨.inr (by rw [hL]; simp), rfl⟩), fun _ => ?_⟩
      rw [if_neg fun e => by rw [horders] at e; exact Bool.false_ne_true e.2]
      exact hm
    | none =>
      have hmem : cfg ∈ instruments := by
        rw [hm.lookup] at hcfg
        exact List.mem_of_find?_eq_some hcfg
      obtain ⟨q, hq⟩ := Option.ne_none_iff_exists'.mp (hqueues cfg hmem)
      refine ⟨_, handleStockDirectory_eq_ok.mpr (.inr ⟨cfg, hcfg, hL, rfl⟩), fun hcur => ?_⟩
      rw [if_pos ⟨rfl, by rw [hm.closed _ hL]; rfl⟩]
      refine ⟨hcur, hm.lookup, fun L hfree => ?_, fun L i hbound => ?_, fun L i hbound => ?_⟩
      · dsimp only at hfree
        by_cases hself : L = msg.stockLocate
        · rw [hself, Function.update_self] at hfree
          cases hfree
        · rw [Function.update_of_ne hself] at hfree ⊢
          exact hm.closed L hfree
      · dsimp only at hbound ⊢
        by_cases hself : L = msg.stockLocate
        · rw [hself, Function.update_self] at hbound ⊢
          obtain rfl : h.books.length = i := Option.some.inj hbound
          exact ⟨OrderBook.empty, by simp, OrderBook.empty_aggregates, rfl⟩
        · rw [Function.update_of_ne hself] at hbound ⊢
          obtain ⟨book, hat, hbook⟩ := hm.listed L i hbound
          exact ⟨book, (List.getElem?_append_left (hm.current.lt_length hbound)).trans hat, hbook⟩
      · dsimp only at hbound ⊢
        by_cases hself : L = msg.stockLocate
        · rw [hself, Function.update_self]
          exact ⟨q, hq⟩
        · rw [Function.update_of_ne hself] at hbound ⊢
          exact hm.queued L i hbound

/-- **A sound message is taken, and the handler goes on showing the market.** -/
theorem Mirrors.deliver (hm : Mirrors instruments h m) (hqueues : ∀ cfg ∈ instruments, cfg.queue ≠ none)
    (hsound : m.Sound msg) (tsc : UInt64) : ∃ h', Engine.deliver h ⟨tsc, msg.1, msg.2⟩ = .ok h' ∧
      Mirrors instruments h' (m.hear instruments msg) := by
  have hbefore : Mirrors instruments (h.handleBefore tsc) m :=
    ⟨⟨hm.current.bound, hm.current.unbound, hm.current.distinct⟩, hm.lookup, hm.closed, hm.listed, hm.queued⟩
  unfold Market.hear
  rcases deliver_kinds tsc msg with ⟨op, hop, hrun⟩ | ⟨dir, hop, hstock, hlocate, hrun⟩ |
    ⟨hop, hstock, hrun⟩
  · obtain ⟨h', hh', hkeep⟩ := hbefore.trade (adds op) fun orders horders => hsound op orders hop horders
    rw [← hrun] at hh'
    rw [hop]
    exact ⟨h', hh', hkeep (hm.current.deliver hh')⟩
  · obtain ⟨h', hh', hkeep⟩ := hbefore.list hqueues dir
    rw [← hrun] at hh'
    rw [hop, hstock, ← hlocate]
    exact ⟨h', hh', hkeep (hm.current.deliver hh')⟩
  · obtain ⟨h', hh', hsame, hinstruments, -⟩ := hrun h
    rw [hop, hstock]
    exact ⟨h', hh', hm.unchanged (hm.current.deliver hh') hsame hinstruments⟩

theorem run_mirrors (hqueues : ∀ cfg ∈ instruments, cfg.queue ≠ none) {ms : List Message}
    (hfeed : Market.ValidFeed instruments .closed ms) (clock : ℕ → UInt64) (t0 : UInt64) :
    ∃ h, run Engine.deliver (.init t0 instruments) (Message.stamp clock ms) = .ok h ∧
      Mirrors instruments h (.after instruments ms) := by
  induction ms using List.reverseRecOn with
  | nil => exact ⟨_, rfl, init_mirrors t0⟩
  | append_singleton ms msg ih =>
    obtain ⟨hold, hsound, -⟩ := Market.validFeed_append.mp hfeed
    obtain ⟨h, hrun, hm⟩ := ih hold
    obtain ⟨h', hh', hm'⟩ := hm.deliver hqueues hsound (clock ms.length)
    refine ⟨h', ?_, Market.after_concat ms msg ▸ hm'⟩
    rw [Message.stamp_concat, run_concat hrun, hh']

theorem Mirrors.best (hm : Mirrors instruments h m) {L : UInt16} {orders : Orders} (hL : m L = some orders)
    {S : Side} (hS : S = Side.Bid ∨ S = Side.Ask) : OrderBook.BestOf orders S (lastUpdate h.pushed L S) := by
  obtain ⟨i, hbound⟩ : ∃ i, h.locateToBook L = some i := by
    refine Option.ne_none_iff_exists'.mp fun e => ?_
    rw [hm.closed L e] at hL
    cases hL
  obtain ⟨book, hbook, haggregates, horders⟩ := hm.listed L i hbound
  obtain ⟨book', hbook', -, htop⟩ := hm.current.bound L i hbound
  obtain rfl : book = book' := Option.some.inj (hbook.symm.trans hbook')
  obtain rfl : orders = book.ordersMap := Option.some.inj (hL.symm.trans horders)
  rw [htop S hS]
  obtain ⟨hwf, hpos, hfew, hshows⟩ := haggregates
  rcases hS with rfl | rfl
  · exact OrderBook.bestOf_top hwf.bid hpos hfew (hshows Side.Bid)
  · exact OrderBook.bestOf_top hwf.ask hpos hfew (hshows Side.Ask)

theorem Mirrors.shows (hm : Mirrors instruments h m) (L : UInt16) {S : Side}
    (hS : S = Side.Bid ∨ S = Side.Ask) : m.Shows L S (lastUpdate h.pushed L S) := by
  cases hL : m L with
  | some orders =>
    rw [Market.Shows, hL]
    exact hm.best hL hS
  | none =>
    have hfree : h.locateToBook L = none := by
      by_contra hbound
      obtain ⟨i, hi⟩ := Option.ne_none_iff_exists'.mp hbound
      obtain ⟨book, -, -, horders⟩ := hm.listed L i hi
      rw [hL] at horders
      cases horders
    rw [Market.Shows, hL]
    exact lastUpdate_none (hm.current.unbound L S hfree)

end Refinement

/-- **The engine follows the market.** A feed that keeps its promises never stops the handler, whenever
its messages come, and for each configured symbol that the feed has listed the levels published last are
the best ones of the live orders. -/
theorem market_followed {instruments : List InstrumentConfig}
    (hqueues : ∀ cfg ∈ instruments, cfg.queue ≠ none) {ms : List Message}
    (hfeed : Market.ValidFeed instruments .closed ms) (clock : ℕ → UInt64) (t0 : UInt64) :
    ∃ h, run deliver (.init t0 instruments) (Message.stamp clock ms) = .ok h ∧
      ∀ L orders, Market.after instruments ms L = some orders → ∀ S, S = Side.Bid ∨ S = Side.Ask →
        OrderBook.BestOf orders S (lastUpdate h.pushed L S) := by
  obtain ⟨h, hrun, hm⟩ := run_mirrors hqueues hfeed clock t0
  exact ⟨h, hrun, fun L orders hL S hS => hm.best hL hS⟩

/-- The directory message of NVDA and a bid. -/
def bidMessages : List Message :=
  [⟨.stockDirectory, nvdaDirectory⟩,
    ⟨.addOrderNoMpid, ⟨9, 0, 0, 1, 66, 5, nvdaDirectory.stock, 10⟩⟩]

theorem bidMessages_valid : Market.ValidFeed [nvda] .closed bidMessages := by
  refine ⟨fun op orders hop _ => (by cases hop), fun op orders hop horders => ?_, trivial⟩
  cases hop
  cases horders
  exact ⟨⟨⟨by decide, by decide⟩, trivial⟩, by decide⟩

theorem market_followed_sample : ∃ h,
    run deliver (.init 0 [nvda]) (Message.stamp (fun _ => 0) bidMessages) = .ok h ∧
    OrderBook.BestOf (Orders.emplace ∅ 1 ⟨5, 10, Side.Bid⟩) Side.Bid (lastUpdate h.pushed 9 Side.Bid) := by
  have hqueues : ∀ cfg ∈ [nvda], cfg.queue ≠ none := by decide
  obtain ⟨h, hrun, hbest⟩ := market_followed hqueues bidMessages_valid (fun _ => 0) 0
  exact ⟨h, hrun, hbest 9 _ rfl _ (Or.inl rfl)⟩

end ItchIngestion.Engine
