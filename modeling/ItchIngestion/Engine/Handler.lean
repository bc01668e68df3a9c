import ItchIngestion.Book.Views
import ItchIngestion.Parser.Messages

/-! # The handler (`handler.hpp`)

`Handler` keeps a book for every locate code of a configured instrument and pushes each change of a
best level to the queue of the instrument. A pointer to a book is its index in `books`; a queue is
its identity, and pushing through a null pointer has no defined meaning. The pushes of a run are
collected in the order in which they are made, each with the locate code it was made for.

`deliver` is one message as the parser delivers it, with the reading of the time stamp counter that
`handle_before` takes. `Effect` says what a delivery is to the handler, for all states at once, and
`Delivered` what it has done to one; for the books and the queues alone that is `Moves`.
-/
namespace ItchIngestion.Engine
open Library ITCH OB
set_option autoImplicit false

/-! ## The code -/

/-- A queue, by the order in which the queues are made. -/
abbrev QueueId := ℕ

/-- A book update or a `Stop`. -/
inductive StrategyMsg
  | bookUpdate (t0 : UInt64) (qty : UInt64) (price : UInt32) (side : Side)
  | stop
deriving DecidableEq

/-- A push to a queue, with the locate code that it is for. -/
structure Push where
  locate : UInt16
  queue : QueueId
  msg : StrategyMsg
deriving DecidableEq

/-- A symbol to follow; its queue may be missing, as a pointer may be null. -/
structure InstrumentConfig where
  symbol : List UInt8
  queue : Option QueueId

/-- The configured instruments by their padded symbols. -/
abbrev Instruments := Finmap (fun _ : List UInt8 => InstrumentConfig)

/-- `Handler`, with the pushes that it has made. -/
structure Handler where
  t0 : UInt64
  lastMessage : Bool
  recordPrices : Bool
  maxOrders : ℕ
  instruments : Instruments
  books : List Book
  locateToBook : UInt16 → Option ℕ
  locateToQueue : UInt16 → Option QueueId
  pushed : List Push

/-- A symbol in eight characters, with blanks behind it. -/
def padSymbol (symbol : List UInt8) : List UInt8 :=
  symbol.take 8 ++ List.replicate (8 - min symbol.length 8) ' '.toUInt8

namespace Handler

/-- `instruments_.emplace(pad_symbol(cfg.symbol), cfg)` -/
def emplaceInstrument (instruments : Instruments) (cfg : InstrumentConfig) : Instruments :=
  if padSymbol cfg.symbol ∈ instruments then instruments
  else instruments.insert (padSymbol cfg.symbol) cfg

/-- A new handler; `t0` is not initialised. -/
def init (t0 : UInt64) (instruments : List InstrumentConfig) : Handler where
  t0 := t0
  lastMessage := false
  recordPrices := false
  maxOrders := 0
  instruments := instruments.foldl emplaceInstrument ∅
  books := []
  locateToBook _ := none
  locateToQueue _ := none
  pushed := []

def push (h : Handler) (locate : UInt16) (queue : Option QueueId) (msg : StrategyMsg) :
    Except Fault Handler :=
  match queue with
  | none => .error .undefinedBehaviour
  | some q => .ok { h with pushed := h.pushed ++ [⟨locate, q, msg⟩] }

/-- `handle_before`: the reading of the counter is kept for the updates of the message. -/
def handleBefore (tsc : UInt64) (h : Handler) : Handler := { h with t0 := tsc }

/-- A change of a best level goes to the queue. -/
def handleChange (h : Handler) (locate : UInt16) (change : BestLvlChange)
    (queue : Option QueueId) : Except Fault Handler :=
  if change.side = Side.None then .ok h
  else h.push locate queue (.bookUpdate h.t0 change.qty change.price change.side)

/-- The common body of the handlers of order messages; additions keep track of the largest book. -/
def handleOrder (track : Bool) (stockLocate : UInt16) (op : Op) (h : Handler) :
    Except Fault Handler :=
  match h.locateToBook stockLocate with
  | none => .ok h
  | some i => do
    let book ← element h.books i
    let (change, book) ← book.apply op
    let maxOrders := if track then max h.maxOrders (size book.ordersMap) else h.maxOrders
    handleChange { h with books := h.books.set i book, maxOrders := maxOrders } stockLocate change
      (h.locateToQueue stockLocate)

/-- The loop over `locate_to_queue`. -/
def stops (h : Handler) : List Push :=
  (List.range 65536).filterMap fun i =>
    (h.locateToQueue (UInt16.ofNat i)).map fun q => ⟨UInt16.ofNat i, q, .stop⟩

/-- `C` stops every queue in the table, `Q` and `M` switch the recording of prices. -/
def handleSystemEvent (msg : SystemEvent) (h : Handler) : Except Fault Handler :=
  if msg.eventCode = 'C'.toUInt8 then
    .ok { h with lastMessage := true, pushed := h.pushed ++ h.stops }
  else if msg.eventCode = 'Q'.toUInt8 then .ok { h with recordPrices := true }
  else if msg.eventCode = 'M'.toUInt8 then .ok { h with recordPrices := false }
  else .ok h

/-- A configured symbol gets a book under a locate code that has none yet. -/
def handleStockDirectory (msg : StockDirectory) (h : Handler) : Except Fault Handler :=
  match h.instruments.lookup msg.stock.toList with
  | none => .ok h
  | some cfg =>
    if h.locateToBook msg.stockLocate ≠ none then .ok h
    else .ok { h with
      books := h.books ++ [OrderBook.empty]
      locateToBook := Function.update h.locateToBook msg.stockLocate (some h.books.length)
      locateToQueue := Function.update h.locateToQueue msg.stockLocate cfg.queue }

/-- `handle(const ITCH::AddOrderNoMpid&)`, and so on for the other order messages. -/
def handleAddOrderNoMpid (msg : AddOrderNoMpid) : Handler → Except Fault Handler :=
  handleOrder true msg.stockLocate
    (.addOrder msg.orderReferenceNumber ⟨msg.buySell⟩ msg.shares msg.price)

def handleAddOrderMpid (msg : AddOrderMpid) : Handler → Except Fault Handler :=
  handleOrder true msg.stockLocate
    (.addOrder msg.orderReferenceNumber ⟨msg.buySell⟩ msg.shares msg.price)

def handleOrderExecuted (msg : OrderExecuted) : Handler → Except Fault Handler :=
  handleOrder false msg.stockLocate (.executeOrder msg.orderReferenceNumber msg.executedShares)

def handleOrderExecutedPrice (msg : OrderExecutedPrice) : Handler → Except Fault Handler :=
  handleOrder false msg.stockLocate (.executeOrder msg.orderReferenceNumber msg.executedShares)

def handleOrderCancel (msg : OrderCancel) : Handler → Except Fault Handler :=
  handleOrder false msg.stockLocate (.cancelOrder msg.orderReferenceNumber msg.cancelledShares)

def handleOrderDelete (msg : OrderDelete) : Handler → Except Fault Handler :=
  handleOrder false msg.stockLocate (.deleteOrder msg.orderReferenceNumber)

def handleOrderReplace (msg : OrderReplace) : Handler → Except Fault Handler :=
  handleOrder false msg.stockLocate
    (.replaceOrder msg.orderReferenceNumber msg.newReferenceNumber msg.shares msg.price)

/-- The overloads of `handle`. -/
def handle : (ty : MessageType) → Option (ty.Msg → Handler → Except Fault Handler)
  | .systemEvent => some handleSystemEvent
  | .stockDirectory => some handleStockDirectory
  | .addOrderNoMpid => some handleAddOrderNoMpid
  | .addOrderMpid => some handleAddOrderMpid
  | .orderExecuted => some handleOrderExecuted
  | .orderExecutedPrice => some handleOrderExecutedPrice
  | .orderCancel => some handleOrderCancel
  | .orderDelete => some handleOrderDelete
  | .orderReplace => some handleOrderReplace
  | _ => none

end Handler

/-- A message with the reading of the counter that `handle_before` makes for it. -/
structure Delivery where
  tsc : UInt64
  ty : MessageType
  msg : ty.Msg

/-- `handle_before`, the overload for the message if there is one, and `handle_after`, which does
nothing. -/
def deliver (h : Handler) (d : Delivery) : Except Fault Handler :=
  match Handler.handle d.ty with
  | none => .ok (h.handleBefore d.tsc)
  | some handle => handle d.msg (h.handleBefore d.tsc)

/-! ## Deliveries -/

namespace Delivery

def stockLocate (d : Delivery) : UInt16 := d.ty.stockLocate d.msg

/-- The directory message, if it is one. -/
def directory? : Delivery → Option StockDirectory
  | ⟨_, .stockDirectory, msg⟩ => some msg
  | _ => none

/-- The system event, if it is one. -/
def systemEvent? : Delivery → Option SystemEvent
  | ⟨_, .systemEvent, msg⟩ => some msg
  | _ => none

/-- The end-of-messages event. -/
def IsLast (d : Delivery) : Prop :=
  ∃ msg, d.systemEvent? = some msg ∧ msg.eventCode = 'C'.toUInt8

end Delivery

/-- The kinds of messages, by what they ask of the handler. -/
inductive Effect (d : Delivery) : Prop
  | order (track : Bool) (op : Op) (hdirectory : d.directory? = none)
      (hevent : d.systemEvent? = none)
      (hrun : ∀ h, deliver h d = (h.handleBefore d.tsc).handleOrder track d.stockLocate op)
  | directory (msg : StockDirectory) (hdirectory : d.directory? = some msg)
      (hevent : d.systemEvent? = none) (hlocate : msg.stockLocate = d.stockLocate)
      (hrun : ∀ h, deliver h d = (h.handleBefore d.tsc).handleStockDirectory msg)
  | event (msg : SystemEvent) (hdirectory : d.directory? = none)
      (hevent : d.systemEvent? = some msg)
      (hrun : ∀ h, deliver h d = (h.handleBefore d.tsc).handleSystemEvent msg)
  | ignored (hdirectory : d.directory? = none) (hevent : d.systemEvent? = none)
      (hrun : ∀ h, deliver h d = .ok (h.handleBefore d.tsc))

theorem Delivery.effect (d : Delivery) : Effect d := by
  obtain ⟨tsc, ty, msg⟩ := d
  cases ty with
  | systemEvent => exact .event msg rfl rfl fun _ => rfl
  | stockDirectory => exact .directory msg rfl rfl rfl fun _ => rfl
  | addOrderNoMpid | addOrderMpid => exact .order true _ rfl rfl fun _ => rfl
  | orderExecuted | orderExecutedPrice | orderCancel | orderDelete | orderReplace =>
    exact .order false _ rfl rfl fun _ => rfl
  | tradingAction | regSho | marketParticipantPos | mwcbDeclineLevel | mwcbStatus
  | ipoQuotationPeriodUpd | luldAuctionCollar | operationalHalt | tradeMessageNonCross
  | tradeMessageCross | brokenTrade | noii | directListingCapitalRaise =>
    exact .ignored rfl rfl fun _ => rfl

/-! ## One message -/

/-- What a change of the best level makes known: at most one push, to the queue of its code. -/
def Announcement (t0 : UInt64) (L : UInt16) (queue : Option QueueId) (change : BestLvlChange)
    (ps : List Push) : Prop :=
  (change.side = Side.None ∧ ps = []) ∨ (change.side ≠ Side.None ∧ ∃ q, queue = some q ∧
    ps = [⟨L, q, .bookUpdate t0 change.qty change.price change.side⟩])

section Steps
variable {h h' : Handler}

theorem element_eq_ok {α : Type} {xs : List α} {i : ℕ} {x : α} :
    element xs i = .ok x ↔ xs[i]? = some x := by
  unfold element
  cases xs[i]? <;> simp

theorem handleChange_eq_ok {L : UInt16} {change : BestLvlChange} {queue : Option QueueId} :
    h.handleChange L change queue = .ok h' ↔
      ∃ ps, Announcement h.t0 L queue change ps ∧ h' = { h with pushed := h.pushed ++ ps } := by
  unfold Handler.handleChange
  by_cases hside : change.side = Side.None
  · rw [if_pos hside]
    constructor
    · intro hrun
      cases hrun
      exact ⟨[], Or.inl ⟨hside, rfl⟩, by rw [List.append_nil]⟩
    · rintro ⟨ps, hps, rfl⟩
      cases hps with
      | inl hnone => rw [hnone.2, List.append_nil]
      | inr hsome => exact absurd hside hsome.1
  · rw [if_neg hside]
    cases queue with
    | none =>
      constructor
      · intro hrun
        cases hrun
      · rintro ⟨ps, hps, -⟩
        cases hps with
        | inl hnone => exact absurd hnone.1 hside
        | inr hsome =>
          obtain ⟨-, q, hq, -⟩ := hsome
          cases hq
    | some q =>
      constructor
      · intro hrun
        cases hrun
        exact ⟨_, Or.inr ⟨hside, q, rfl, rfl⟩, rfl⟩
      · rintro ⟨ps, hps, rfl⟩
        cases hps with
        | inl hnone => exact absurd hnone.1 hside
        | inr hsome =>
          obtain ⟨-, q', hq, rfl⟩ := hsome
          cases hq
          rfl

/-- **An order message**: nothing for a free locate code, else one operation on its book. -/
theorem handleOrder_eq_ok {track : Bool} {L : UInt16} {op : Op} :
    h.handleOrder track L op = .ok h' ↔ (h.locateToBook L = none ∧ h' = h) ∨
      ∃ i book book' change ps, h.locateToBook L = some i ∧ h.books[i]? = some book ∧
        book.apply op = .ok (change, book') ∧
        Announcement h.t0 L (h.locateToQueue L) change ps ∧
        h' = { h with
          books := h.books.set i book'
          maxOrders := if track then max h.maxOrders (size book'.ordersMap) else h.maxOrders
          pushed := h.pushed ++ ps } := by
  unfold Handler.handleOrder
  cases hbound : h.locateToBook L with
  | none =>
    constructor
    · intro hrun
      cases hrun
      exact Or.inl ⟨rfl, rfl⟩
    · rintro (⟨-, rfl⟩ | ⟨i, book, book', change, ps, hi, -⟩)
      · rfl
      · cases hi
  | some i =>
    constructor
    · intro hrun
      obtain ⟨book, hbook, hrun⟩ := bind_eq_ok.mp hrun
      obtain ⟨⟨change, book'⟩, happly, hrun⟩ := bind_eq_ok.mp hrun
      obtain ⟨ps, hps, rfl⟩ := handleChange_eq_ok.mp hrun
      exact Or.inr ⟨i, book, book', change, ps, rfl, element_eq_ok.mp hbook, happly, hps, rfl⟩
    · rintro (⟨hfree, -⟩ | ⟨j, book, book', change, ps, hj, hbook, happly, hps, rfl⟩)
      · cases hfree
      · cases hj
        refine bind_eq_ok.mpr ⟨book, element_eq_ok.mpr hbook, ?_⟩
        exact bind_eq_ok.mpr ⟨(change, book'), happly, handleChange_eq_ok.mpr ⟨ps, hps, rfl⟩⟩

theorem handleStockDirectory_eq_ok {msg : StockDirectory} :
    h.handleStockDirectory msg = .ok h' ↔
      ((h.instruments.lookup msg.stock.toList = none ∨ h.locateToBook msg.stockLocate ≠ none) ∧
        h' = h) ∨
      ∃ cfg, h.instruments.lookup msg.stock.toList = some cfg ∧
        h.locateToBook msg.stockLocate = none ∧
        h' = { h with
          books := h.books ++ [OrderBook.empty]
          locateToBook := Function.update h.locateToBook msg.stockLocate (some h.books.length)
          locateToQueue := Function.update h.locateToQueue msg.stockLocate cfg.queue } := by
  unfold Handler.handleStockDirectory
  cases hcfg : h.instruments.lookup msg.stock.toList with
  | none => simp [eq_comm]
  | some cfg =>
    dsimp only
    by_cases hfree : h.locateToBook msg.stockLocate = none
    · rw [if_neg (not_not.mpr hfree)]
      simp [hfree, eq_comm]
    · rw [if_pos hfree]
      simp [hfree, eq_comm]

/-- **A system event** changes flags; the last one makes the pushes of `stops`. -/
theorem handleSystemEvent_eq (h : Handler) (msg : SystemEvent) :
    (msg.eventCode = 'C'.toUInt8 ∧ h.handleSystemEvent msg =
      .ok { h with lastMessage := true, pushed := h.pushed ++ h.stops }) ∨
    (msg.eventCode ≠ 'C'.toUInt8 ∧ ∃ b, h.handleSystemEvent msg =
      .ok { h with recordPrices := b }) := by
  unfold Handler.handleSystemEvent
  by_cases hC : msg.eventCode = 'C'.toUInt8
  · exact Or.inl ⟨hC, if_pos hC⟩
  · refine Or.inr ⟨hC, ?_⟩
    rw [if_neg hC]
    split
    · exact ⟨true, rfl⟩
    · split
      · exact ⟨false, rfl⟩
      · exact ⟨h.recordPrices, rfl⟩

theorem mem_stops {p : Push} : p ∈ h.stops ↔
    h.locateToQueue p.locate = some p.queue ∧ p.msg = .stop := by
  unfold Handler.stops
  rw [List.mem_filterMap]
  constructor
  · rintro ⟨i, -, hi⟩
    obtain ⟨q, hq, rfl⟩ := Option.map_eq_some_iff.mp hi
    exact ⟨hq, rfl⟩
  · rintro ⟨hq, hstop⟩
    refine ⟨p.locate.toNat, List.mem_range.mpr p.locate.toNat_lt, ?_⟩
    rw [UInt16.ofNat_toNat, hq, Option.map_some, ← hstop]

end Steps

/-! ## What a delivery has done -/

/-- What a message that is handled has done to the handler. -/
inductive Delivered (h : Handler) (d : Delivery) (h' : Handler) : Prop
  | quiet (recordPrices : Bool) (hlast : ¬ d.IsLast)
      (hdirectory : ∀ msg, d.directory? = some msg →
        h.instruments.lookup msg.stock.toList = none ∨ h.locateToBook msg.stockLocate ≠ none)
      (heq : h' = { h with t0 := d.tsc, recordPrices := recordPrices })
  | last (hlast : d.IsLast) (hdirectory : d.directory? = none)
      (heq : h' = { h with t0 := d.tsc, lastMessage := true, pushed := h.pushed ++ h.stops })
  | bound (msg : StockDirectory) (cfg : InstrumentConfig) (hlast : ¬ d.IsLast)
      (hdirectory : d.directory? = some msg) (hlocate : msg.stockLocate = d.stockLocate)
      (hcfg : h.instruments.lookup msg.stock.toList = some cfg)
      (hfree : h.locateToBook d.stockLocate = none)
      (heq : h' = { h with
        t0 := d.tsc
        books := h.books ++ [OrderBook.empty]
        locateToBook := Function.update h.locateToBook d.stockLocate (some h.books.length)
        locateToQueue := Function.update h.locateToQueue d.stockLocate cfg.queue })
  | traded (maxOrders : ℕ) (op : Op) (i : ℕ) (book book' : Book) (change : BestLvlChange)
      (ps : List Push) (hlast : ¬ d.IsLast) (hdirectory : d.directory? = none)
      (hbound : h.locateToBook d.stockLocate = some i) (hbook : h.books[i]? = some book)
      (happly : book.apply op = .ok (change, book'))
      (hps : Announcement d.tsc d.stockLocate (h.locateToQueue d.stockLocate) change ps)
      (heq : h' = { h with
        t0 := d.tsc
        books := h.books.set i book'
        maxOrders := maxOrders
        pushed := h.pushed ++ ps })

theorem not_isLast {d : Delivery} (hevent : d.systemEvent? = none) : ¬ d.IsLast := by
  rintro ⟨msg, hmsg, -⟩
  rw [hevent] at hmsg
  cases hmsg

/-- **Every message has done one of these.** -/
theorem deliver_cases {h h' : Handler} {d : Delivery} (hrun : deliver h d = .ok h') :
    Delivered h d h' := by
  have hno : d.directory? = none → ∀ msg, d.directory? = some msg →
      h.instruments.lookup msg.stock.toList = none ∨ h.locateToBook msg.stockLocate ≠ none := by
    intro hdirectory msg hmsg
    rw [hdirectory] at hmsg
    cases hmsg
  cases d.effect with
  | order track op hdirectory hevent heffect =>
    rw [heffect] at hrun
    rcases handleOrder_eq_ok.mp hrun with
      ⟨-, rfl⟩ | ⟨i, book, book', change, ps, hbound, hbook, happly, hps, rfl⟩
    · exact .quiet h.recordPrices (not_isLast hevent) (hno hdirectory) rfl
    · exact .traded _ op i book book' change ps (not_isLast hevent) hdirectory hbound hbook happly
        hps rfl
  | directory msg hdirectory hevent hlocate heffect =>
    rw [heffect] at hrun
    rcases handleStockDirectory_eq_ok.mp hrun with ⟨hquiet, rfl⟩ | ⟨cfg, hcfg, hfree, rfl⟩
    · refine .quiet h.recordPrices (not_isLast hevent) (fun msg' hmsg' => ?_) rfl
      rw [hdirectory] at hmsg'
      cases hmsg'
      exact hquiet
    · rw [hlocate] at hfree ⊢
      exact .bound msg cfg (not_isLast hevent) hdirectory hlocate hcfg hfree rfl
  | event msg hdirectory hevent heffect =>
    rw [heffect] at hrun
    rcases handleSystemEvent_eq (h.handleBefore d.tsc) msg with ⟨hC, heq⟩ | ⟨hC, b, heq⟩
    · rw [heq] at hrun
      cases hrun
      exact .last ⟨msg, hevent, hC⟩ hdirectory rfl
    · rw [heq] at hrun
      cases hrun
      refine .quiet b ?_ (hno hdirectory) rfl
      rintro ⟨msg', hmsg', hC'⟩
      rw [hevent] at hmsg'
      cases hmsg'
      exact hC hC'
  | ignored hdirectory hevent heffect =>
    rw [heffect] at hrun
    cases hrun
    exact .quiet h.recordPrices (not_isLast hevent) (hno hdirectory) rfl

/-! ## What a message does to the books and the queues -/

/-- The same books under the same locate codes. -/
structure SameBooks (h h' : Handler) : Prop where
  books : h'.books = h.books
  locateToBook : h'.locateToBook = h.locateToBook
  locateToQueue : h'.locateToQueue = h.locateToQueue

/-- Nothing, or `Stop` to every bound queue; a new book; or one operation on one book. -/
inductive Moves (h h' : Handler) : Prop
  | quiet (hsame : SameBooks h h') (hpushed : h'.pushed = h.pushed ∨ h'.pushed = h.pushed ++ h.stops)
  | bound (locate : UInt16) (queue : Option QueueId) (hfree : h.locateToBook locate = none)
      (hbooks : h'.books = h.books ++ [OrderBook.empty])
      (hbook : h'.locateToBook = Function.update h.locateToBook locate (some h.books.length))
      (hqueue : h'.locateToQueue = Function.update h.locateToQueue locate queue)
      (hpushed : h'.pushed = h.pushed)
  | traded (locate : UInt16) (i : ℕ) (op : Op) (book book' : Book) (change : BestLvlChange)
      (hbound : h.locateToBook locate = some i) (hbook : h.books[i]? = some book)
      (happly : book.apply op = .ok (change, book')) (hbooks : h'.books = h.books.set i book')
      (hlocate : h'.locateToBook = h.locateToBook) (hqueue : h'.locateToQueue = h.locateToQueue)
      (hpushed : (change.side = Side.None ∧ h'.pushed = h.pushed) ∨
        (change.side ≠ Side.None ∧ ∃ q, h.locateToQueue locate = some q ∧ h'.pushed = h.pushed ++
          [⟨locate, q, .bookUpdate h'.t0 change.qty change.price change.side⟩]))

/-- **Every message makes one of the moves.** -/
theorem deliver_moves {h h' : Handler} {d : Delivery} (hrun : deliver h d = .ok h') :
    Moves (h.handleBefore d.tsc) h' := by
  cases deliver_cases hrun with
  | quiet recordPrices hlast hdirectory heq =>
    subst heq
    exact .quiet ⟨rfl, rfl, rfl⟩ (Or.inl rfl)
  | last hlast hdirectory heq =>
    subst heq
    exact .quiet ⟨rfl, rfl, rfl⟩ (Or.inr rfl)
  | bound msg cfg hlast hdirectory hlocate hcfg hfree heq =>
    subst heq
    exact .bound d.stockLocate cfg.queue hfree rfl rfl rfl rfl
  | traded maxOrders op i book book' change ps hlast hdirectory hbound hbook happly hps heq =>
    subst heq
    refine .traded d.stockLocate i op book book' change hbound hbook happly rfl rfl rfl ?_
    cases hps with
    | inl hnone => exact Or.inl ⟨hnone.1, by rw [hnone.2, List.append_nil]; rfl⟩
    | inr hsome =>
      obtain ⟨hside, q, hq, rfl⟩ := hsome
      exact Or.inr ⟨hside, q, hq, rfl⟩

end ItchIngestion.Engine
