import ItchIngestion.Library.Bytes

/-! # The messages and their layouts (`itch_parser.hpp`)

A layout is a list of fields, and a field is a pointer to a member, modelled by its two accessors,
with the kind of the member: its type and, for timestamps, the `be48` encoding. A `char` is its
byte. The structs and layouts follow the source field by field.
-/
namespace ItchIngestion.ITCH
open Library
set_option autoImplicit false

/-! ## Fields -/

/-- The types of the members, with `be48` for a `uint64_t` stored in six bytes. -/
inductive Kind
  | char
  | chars (n : ℕ)
  | uint16
  | uint32
  | uint64
  | be48
deriving DecidableEq

namespace Kind

/-- The type of a member. -/
abbrev Value : Kind → Type
  | char => UInt8
  | chars n => Vector UInt8 n
  | uint16 => UInt16
  | uint32 => UInt32
  | uint64 | be48 => UInt64

/-- The bytes that a member takes on the wire. -/
def size : Kind → ℕ
  | char => 1
  | chars n => n
  | uint16 => 2
  | uint32 => 4
  | uint64 => 8
  | be48 => 6

end Kind

/-- A member of a message: its kind, and how it is read and written. -/
structure Field (Msg : Type) where
  kind : Kind
  get : Msg → kind.Value
  set : Msg → kind.Value → Msg

/-- The bytes of the field on the wire. -/
def Field.size {Msg : Type} (f : Field Msg) : ℕ := f.kind.size

/-- The fields of a message in the order of the wire. -/
abbrev Layout (Msg : Type) := List (Field Msg)

/-! ## The messages -/

/-- Begin and end of the feed and of market hours. -/
structure SystemEvent where
  stockLocate : UInt16
  trackingNumber : UInt16
  timestamp : UInt64
  eventCode : UInt8
deriving Inhabited

/-- A stock and its locate code for the day. -/
structure StockDirectory where
  stockLocate : UInt16
  trackingNumber : UInt16
  timestamp : UInt64
  stock : Vector UInt8 8
  marketCategory : UInt8
  financialStatusIndicator : UInt8
  roundLotSize : UInt32
  roundLotsOnly : UInt8
  issueClassification : UInt8
  issueSubType : Vector UInt8 2
  authenticity : UInt8
  shortSaleThresholdIndicator : UInt8
  ipoFlag : UInt8
  luldReferencePriceTier : UInt8
  etpFlag : UInt8
  etpLeverageFactor : UInt32
  inverseIndicator : UInt8
deriving Inhabited

/-- Halt and resumption of trading in a stock. -/
structure TradingAction where
  stockLocate : UInt16
  trackingNumber : UInt16
  timestamp : UInt64
  stock : Vector UInt8 8
  tradingState : UInt8
  reserved : UInt8
  reason : Vector UInt8 4
deriving Inhabited

/-- The restriction of short sales in a stock. -/
structure RegSho where
  locateCode : UInt16
  trackingNumber : UInt16
  timestamp : UInt64
  stock : Vector UInt8 8
  regShoAction : UInt8
deriving Inhabited

/-- The position of a market participant in a stock. -/
structure MarketParticipantPos where
  stockLocate : UInt16
  trackingNumber : UInt16
  timestamp : UInt64
  mpid : Vector UInt8 4
  stock : Vector UInt8 8
  primaryMarketMaker : UInt8
  marketMakerMode : UInt8
  marketParticipantState : UInt8
deriving Inhabited

/-- The three levels of the market-wide circuit breaker. -/
structure MwcbDeclineLevel where
  stockLocate : UInt16
  trackingNumber : UInt16
  timestamp : UInt64
  level1 : UInt64
  level2 : UInt64
  level3 : UInt64
deriving Inhabited

/-- A level of the circuit breaker was breached. -/
structure MwcbStatus where
  stockLocate : UInt16
  trackingNumber : UInt16
  timestamp : UInt64
  breachedLevel : UInt8
deriving Inhabited

/-- When quotation of a new issue begins. -/
structure IpoQuotationPeriodUpd where
  stockLocate : UInt16
  trackingNumber : UInt16
  timestamp : UInt64
  stock : Vector UInt8 8
  ipoQuotationReleaseTime : UInt32
  ipoQuatationReleaseQualifier : UInt8
  ipoPrice : UInt32
deriving Inhabited

/-- The collar of an auction behind a trading pause. -/
structure LuldAuctionCollar where
  stockLocate : UInt16
  trackingNumber : UInt16
  timestamp : UInt64
  stock : Vector UInt8 8
  auctionCollarReferencePrice : UInt32
  upperAuctionCollarPrice : UInt32
  lowerAuctionCollarPrice : UInt32
  auctionCollarExtension : UInt32
deriving Inhabited

/-- An interruption of the service on one market. -/
structure OperationalHalt where
  stockLocate : UInt16
  trackingNumber : UInt16
  timestamp : UInt64
  stock : Vector UInt8 8
  marketCode : UInt8
  operationalHaltAction : UInt8
deriving Inhabited

/-- A new order without the name of its participant. -/
structure AddOrderNoMpid where
  stockLocate : UInt16
  trackingNumber : UInt16
  timestamp : UInt64
  orderReferenceNumber : UInt64
  buySell : UInt8
  shares : UInt32
  stock : Vector UInt8 8
  price : UInt32
deriving Inhabited

/-- A new order with the name of its participant. -/
structure AddOrderMpid where
  stockLocate : UInt16
  trackingNumber : UInt16
  timestamp : UInt64
  orderReferenceNumber : UInt64
  buySell : UInt8
  shares : UInt32
  stock : Vector UInt8 8
  price : UInt32
  attribution : Vector UInt8 4
deriving Inhabited

/-- Shares of an order are executed at its price. -/
structure OrderExecuted where
  stockLocate : UInt16
  trackingNumber : UInt16
  timestamp : UInt64
  orderReferenceNumber : UInt64
  executedShares : UInt32
  matchNumber : UInt64
deriving Inhabited

/-- Shares of an order are executed at another price. -/
structure OrderExecutedPrice where
  stockLocate : UInt16
  trackingNumber : UInt16
  timestamp : UInt64
  orderReferenceNumber : UInt64
  executedShares : UInt32
  matchNumber : UInt64
  printable : UInt8
  executionPrice : UInt32
deriving Inhabited

/-- Shares of an order are cancelled. -/
structure OrderCancel where
  stockLocate : UInt16
  trackingNumber : UInt16
  timestamp : UInt64
  orderReferenceNumber : UInt64
  cancelledShares : UInt32
deriving Inhabited

/-- The rest of an order is cancelled. -/
structure OrderDelete where
  stockLocate : UInt16
  trackingNumber : UInt16
  timestamp : UInt64
  orderReferenceNumber : UInt64
deriving Inhabited

/-- An order gives way to a new one on the same side. -/
structure OrderReplace where
  stockLocate : UInt16
  trackingNumber : UInt16
  timestamp : UInt64
  orderReferenceNumber : UInt64
  newReferenceNumber : UInt64
  shares : UInt32
  price : UInt32
deriving Inhabited

/-- A trade against an order that is not displayed. -/
structure TradeMessageNonCross where
  stockLocate : UInt16
  trackingNumber : UInt16
  timestamp : UInt64
  orderReferenceNumber : UInt64
  buySell : UInt8
  shares : UInt32
  stock : Vector UInt8 8
  price : UInt32
  matchNumber : UInt64
deriving Inhabited

/-- A cross and its price. -/
structure TradeMessageCross where
  stockLocate : UInt16
  trackingNumber : UInt16
  timestamp : UInt64
  shares : UInt32
  stock : Vector UInt8 8
  crossPrice : UInt32
  matchNumber : UInt64
  crossType : UInt8
deriving Inhabited

/-- A trade that is taken back. -/
structure BrokenTrade where
  stockLocate : UInt16
  trackingNumber : UInt16
  timestamp : UInt64
  matchNumber : UInt64
deriving Inhabited

/-- The imbalance before a cross. -/
structure Noii where
  stockLocate : UInt16
  trackingNumber : UInt16
  timestamp : UInt64
  pairedShares : UInt64
  imbalanceShares : UInt64
  imbalanceDirection : UInt8
  stock : Vector UInt8 8
  farPrice : UInt32
  nearPrice : UInt32
  currentReferencePrice : UInt32
  crossType : UInt8
  priceVariationIndicator : UInt8
deriving Inhabited

/-- The prices of a direct listing. -/
structure DirectListingCapitalRaise where
  stockLocate : UInt16
  trackingNumber : UInt16
  timestamp : UInt64
  stock : Vector UInt8 8
  openEligibilityStatus : UInt8
  minimumAllowablePrice : UInt32
  maximumAllowablePrice : UInt32
  nearExecutionPrice : UInt32
  nearExecutionTime : UInt64
  lowerPriceRangeCollar : UInt32
  upperPriceRangeCollar : UInt32
deriving Inhabited

/-! ## The layouts -/

def systemEventLayout : Layout SystemEvent :=
  [⟨.uint16, SystemEvent.stockLocate, fun m v => { m with stockLocate := v }⟩,
   ⟨.uint16, SystemEvent.trackingNumber, fun m v => { m with trackingNumber := v }⟩,
   ⟨.be48, SystemEvent.timestamp, fun m v => { m with timestamp := v }⟩,
   ⟨.char, SystemEvent.eventCode, fun m v => { m with eventCode := v }⟩]

def stockDirectoryLayout : Layout StockDirectory :=
  [⟨.uint16, StockDirectory.stockLocate, fun m v => { m with stockLocate := v }⟩,
   ⟨.uint16, StockDirectory.trackingNumber, fun m v => { m with trackingNumber := v }⟩,
   ⟨.be48, StockDirectory.timestamp, fun m v => { m with timestamp := v }⟩,
   ⟨.chars 8, StockDirectory.stock, fun m v => { m with stock := v }⟩,
   ⟨.char, StockDirectory.marketCategory, fun m v => { m with marketCategory := v }⟩,
   ⟨.char, StockDirectory.financialStatusIndicator,
      fun m v => { m with financialStatusIndicator := v }⟩,
   ⟨.uint32, StockDirectory.roundLotSize, fun m v => { m with roundLotSize := v }⟩,
   ⟨.char, StockDirectory.roundLotsOnly, fun m v => { m with roundLotsOnly := v }⟩,
   ⟨.char, StockDirectory.issueClassification, fun m v => { m with issueClassification := v }⟩,
   ⟨.chars 2, StockDirectory.issueSubType, fun m v => { m with issueSubType := v }⟩,
   ⟨.char, StockDirectory.authenticity, fun m v => { m with authenticity := v }⟩,
   ⟨.char, StockDirectory.shortSaleThresholdIndicator,
      fun m v => { m with shortSaleThresholdIndicator := v }⟩,
   ⟨.char, StockDirectory.ipoFlag, fun m v => { m with ipoFlag := v }⟩,
   ⟨.char, StockDirectory.luldReferencePriceTier,
      fun m v => { m with luldReferencePriceTier := v }⟩,
   ⟨.char, StockDirectory.etpFlag, fun m v => { m with etpFlag := v }⟩,
   ⟨.uint32, StockDirectory.etpLeverageFactor, fun m v => { m with etpLeverageFactor := v }⟩,
   ⟨.char, StockDirectory.inverseIndicator, fun m v => { m with inverseIndicator := v }⟩]

def tradingActionLayout : Layout TradingAction :=
  [⟨.uint16, TradingAction.stockLocate, fun m v => { m with stockLocate := v }⟩,
   ⟨.uint16, TradingAction.trackingNumber, fun m v => { m with trackingNumber := v }⟩,
   ⟨.be48, TradingAction.timestamp, fun m v => { m with timestamp := v }⟩,
   ⟨.chars 8, TradingAction.stock, fun m v => { m with stock := v }⟩,
   ⟨.char, TradingAction.tradingState, fun m v => { m with tradingState := v }⟩,
   ⟨.char, TradingAction.reserved, fun m v => { m with reserved := v }⟩,
   ⟨.chars 4, TradingAction.reason, fun m v => { m with reason := v }⟩]

def regShoLayout : Layout RegSho :=
  [⟨.uint16, RegSho.locateCode, fun m v => { m with locateCode := v }⟩,
   ⟨.uint16, RegSho.trackingNumber, fun m v => { m with trackingNumber := v }⟩,
   ⟨.be48, RegSho.timestamp, fun m v => { m with timestamp := v }⟩,
   ⟨.chars 8, RegSho.stock, fun m v => { m with stock := v }⟩,
   ⟨.char, RegSho.regShoAction, fun m v => { m with regShoAction := v }⟩]

def marketParticipantPosLayout : Layout MarketParticipantPos :=
  [⟨.uint16, MarketParticipantPos.stockLocate, fun m v => { m with stockLocate := v }⟩,
   ⟨.uint16, MarketParticipantPos.trackingNumber, fun m v => { m with trackingNumber := v }⟩,
   ⟨.be48, MarketParticipantPos.timestamp, fun m v => { m with timestamp := v }⟩,
   ⟨.chars 4, MarketParticipantPos.mpid, fun m v => { m with mpid := v }⟩,
   ⟨.chars 8, MarketParticipantPos.stock, fun m v => { m with stock := v }⟩,
   ⟨.char, MarketParticipantPos.primaryMarketMaker, fun m v => { m with primaryMarketMaker := v }⟩,
   ⟨.char, MarketParticipantPos.marketMakerMode, fun m v => { m with marketMakerMode := v }⟩,
   ⟨.char, MarketParticipantPos.marketParticipantState,
      fun m v => { m with marketParticipantState := v }⟩]

def mwcbDeclineLevelLayout : Layout MwcbDeclineLevel :=
  [⟨.uint16, MwcbDeclineLevel.stockLocate, fun m v => { m with stockLocate := v }⟩,
   ⟨.uint16, MwcbDeclineLevel.trackingNumber, fun m v => { m with trackingNumber := v }⟩,
   ⟨.be48, MwcbDeclineLevel.timestamp, fun m v => { m with timestamp := v }⟩,
   ⟨.uint64, MwcbDeclineLevel.level1, fun m v => { m with level1 := v }⟩,
   ⟨.uint64, MwcbDeclineLevel.level2, fun m v => { m with level2 := v }⟩,
   ⟨.uint64, MwcbDeclineLevel.level3, fun m v => { m with level3 := v }⟩]

def mwcbStatusLayout : Layout MwcbStatus :=
  [⟨.uint16, MwcbStatus.stockLocate, fun m v => { m with stockLocate := v }⟩,
   ⟨.uint16, MwcbStatus.trackingNumber, fun m v => { m with trackingNumber := v }⟩,
   ⟨.be48, MwcbStatus.timestamp, fun m v => { m with timestamp := v }⟩,
   ⟨.char, MwcbStatus.breachedLevel, fun m v => { m with breachedLevel := v }⟩]

def ipoQuotationPeriodUpdLayout : Layout IpoQuotationPeriodUpd :=
  [⟨.uint16, IpoQuotationPeriodUpd.stockLocate, fun m v => { m with stockLocate := v }⟩,
   ⟨.uint16, IpoQuotationPeriodUpd.trackingNumber, fun m v => { m with trackingNumber := v }⟩,
   ⟨.be48, IpoQuotationPeriodUpd.timestamp, fun m v => { m with timestamp := v }⟩,
   ⟨.chars 8, IpoQuotationPeriodUpd.stock, fun m v => { m with stock := v }⟩,
   ⟨.uint32, IpoQuotationPeriodUpd.ipoQuotationReleaseTime,
      fun m v => { m with ipoQuotationReleaseTime := v }⟩,
   ⟨.char, IpoQuotationPeriodUpd.ipoQuatationReleaseQualifier,
      fun m v => { m with ipoQuatationReleaseQualifier := v }⟩,
   ⟨.uint32, IpoQuotationPeriodUpd.ipoPrice, fun m v => { m with ipoPrice := v }⟩]

def luldAuctionCollarLayout : Layout LuldAuctionCollar :=
  [⟨.uint16, LuldAuctionCollar.stockLocate, fun m v => { m with stockLocate := v }⟩,
   ⟨.uint16, LuldAuctionCollar.trackingNumber, fun m v => { m with trackingNumber := v }⟩,
   ⟨.be48, LuldAuctionCollar.timestamp, fun m v => { m with timestamp := v }⟩,
   ⟨.chars 8, LuldAuctionCollar.stock, fun m v => { m with stock := v }⟩,
   ⟨.uint32, LuldAuctionCollar.auctionCollarReferencePrice,
      fun m v => { m with auctionCollarReferencePrice := v }⟩,
   ⟨.uint32, LuldAuctionCollar.upperAuctionCollarPrice,
      fun m v => { m with upperAuctionCollarPrice := v }⟩,
   ⟨.uint32, LuldAuctionCollar.lowerAuctionCollarPrice,
      fun m v => { m with lowerAuctionCollarPrice := v }⟩,
   ⟨.uint32, LuldAuctionCollar.auctionCollarExtension,
      fun m v => { m with auctionCollarExtension := v }⟩]

def operationalHaltLayout : Layout OperationalHalt :=
  [⟨.uint16, OperationalHalt.stockLocate, fun m v => { m with stockLocate := v }⟩,
   ⟨.uint16, OperationalHalt.trackingNumber, fun m v => { m with trackingNumber := v }⟩,
   ⟨.be48, OperationalHalt.timestamp, fun m v => { m with timestamp := v }⟩,
   ⟨.chars 8, OperationalHalt.stock, fun m v => { m with stock := v }⟩,
   ⟨.char, OperationalHalt.marketCode, fun m v => { m with marketCode := v }⟩,
   ⟨.char, OperationalHalt.operationalHaltAction, fun m v => { m with operationalHaltAction := v }⟩]

def addOrderNoMpidLayout : Layout AddOrderNoMpid :=
  [⟨.uint16, AddOrderNoMpid.stockLocate, fun m v => { m with stockLocate := v }⟩,
   ⟨.uint16, AddOrderNoMpid.trackingNumber, fun m v => { m with trackingNumber := v }⟩,
   ⟨.be48, AddOrderNoMpid.timestamp, fun m v => { m with timestamp := v }⟩,
   ⟨.uint64, AddOrderNoMpid.orderReferenceNumber, fun m v => { m with orderReferenceNumber := v }⟩,
   ⟨.char, AddOrderNoMpid.buySell, fun m v => { m with buySell := v }⟩,
   ⟨.uint32, AddOrderNoMpid.shares, fun m v => { m with shares := v }⟩,
   ⟨.chars 8, AddOrderNoMpid.stock, fun m v => { m with stock := v }⟩,
   ⟨.uint32, AddOrderNoMpid.price, fun m v => { m with price := v }⟩]

def addOrderMpidLayout : Layout AddOrderMpid :=
  [⟨.uint16, AddOrderMpid.stockLocate, fun m v => { m with stockLocate := v }⟩,
   ⟨.uint16, AddOrderMpid.trackingNumber, fun m v => { m with trackingNumber := v }⟩,
   ⟨.be48, AddOrderMpid.timestamp, fun m v => { m with timestamp := v }⟩,
   ⟨.uint64, AddOrderMpid.orderReferenceNumber, fun m v => { m with orderReferenceNumber := v }⟩,
   ⟨.char, AddOrderMpid.buySell, fun m v => { m with buySell := v }⟩,
   ⟨.uint32, AddOrderMpid.shares, fun m v => { m with shares := v }⟩,
   ⟨.chars 8, AddOrderMpid.stock, fun m v => { m with stock := v }⟩,
   ⟨.uint32, AddOrderMpid.price, fun m v => { m with price := v }⟩,
   ⟨.chars 4, AddOrderMpid.attribution, fun m v => { m with attribution := v }⟩]

def orderExecutedLayout : Layout OrderExecuted :=
  [⟨.uint16, OrderExecuted.stockLocate, fun m v => { m with stockLocate := v }⟩,
   ⟨.uint16, OrderExecuted.trackingNumber, fun m v => { m with trackingNumber := v }⟩,
   ⟨.be48, OrderExecuted.timestamp, fun m v => { m with timestamp := v }⟩,
   ⟨.uint64, OrderExecuted.orderReferenceNumber, fun m v => { m with orderReferenceNumber := v }⟩,
   ⟨.uint32, OrderExecuted.executedShares, fun m v => { m with executedShares := v }⟩,
   ⟨.uint64, OrderExecuted.matchNumber, fun m v => { m with matchNumber := v }⟩]

def orderExecutedPriceLayout : Layout OrderExecutedPrice :=
  [⟨.uint16, OrderExecutedPrice.stockLocate, fun m v => { m with stockLocate := v }⟩,
   ⟨.uint16, OrderExecutedPrice.trackingNumber, fun m v => { m with trackingNumber := v }⟩,
   ⟨.be48, OrderExecutedPrice.timestamp, fun m v => { m with timestamp := v }⟩,
   ⟨.uint64, OrderExecutedPrice.orderReferenceNumber,
      fun m v => { m with orderReferenceNumber := v }⟩,
   ⟨.uint32, OrderExecutedPrice.executedShares, fun m v => { m with executedShares := v }⟩,
   ⟨.uint64, OrderExecutedPrice.matchNumber, fun m v => { m with matchNumber := v }⟩,
   ⟨.char, OrderExecutedPrice.printable, fun m v => { m with printable := v }⟩,
   ⟨.uint32, OrderExecutedPrice.executionPrice, fun m v => { m with executionPrice := v }⟩]

def orderCancelLayout : Layout OrderCancel :=
  [⟨.uint16, OrderCancel.stockLocate, fun m v => { m with stockLocate := v }⟩,
   ⟨.uint16, OrderCancel.trackingNumber, fun m v => { m with trackingNumber := v }⟩,
   ⟨.be48, OrderCancel.timestamp, fun m v => { m with timestamp := v }⟩,
   ⟨.uint64, OrderCancel.orderReferenceNumber, fun m v => { m with orderReferenceNumber := v }⟩,
   ⟨.uint32, OrderCancel.cancelledShares, fun m v => { m with cancelledShares := v }⟩]

def orderDeleteLayout : Layout OrderDelete :=
  [⟨.uint16, OrderDelete.stockLocate, fun m v => { m with stockLocate := v }⟩,
   ⟨.uint16, OrderDelete.trackingNumber, fun m v => { m with trackingNumber := v }⟩,
   ⟨.be48, OrderDelete.timestamp, fun m v => { m with timestamp := v }⟩,
   ⟨.uint64, OrderDelete.orderReferenceNumber, fun m v => { m with orderReferenceNumber := v }⟩]

def orderReplaceLayout : Layout OrderReplace :=
  [⟨.uint16, OrderReplace.stockLocate, fun m v => { m with stockLocate := v }⟩,
   ⟨.uint16, OrderReplace.trackingNumber, fun m v => { m with trackingNumber := v }⟩,
   ⟨.be48, OrderReplace.timestamp, fun m v => { m with timestamp := v }⟩,
   ⟨.uint64, OrderReplace.orderReferenceNumber, fun m v => { m with orderReferenceNumber := v }⟩,
   ⟨.uint64, OrderReplace.newReferenceNumber, fun m v => { m with newReferenceNumber := v }⟩,
   ⟨.uint32, OrderReplace.shares, fun m v => { m with shares := v }⟩,
   ⟨.uint32, OrderReplace.price, fun m v => { m with price := v }⟩]

def tradeMessageNonCrossLayout : Layout TradeMessageNonCross :=
  [⟨.uint16, TradeMessageNonCross.stockLocate, fun m v => { m with stockLocate := v }⟩,
   ⟨.uint16, TradeMessageNonCross.trackingNumber, fun m v => { m with trackingNumber := v }⟩,
   ⟨.be48, TradeMessageNonCross.timestamp, fun m v => { m with timestamp := v }⟩,
   ⟨.uint64, TradeMessageNonCross.orderReferenceNumber,
      fun m v => { m with orderReferenceNumber := v }⟩,
   ⟨.char, TradeMessageNonCross.buySell, fun m v => { m with buySell := v }⟩,
   ⟨.uint32, TradeMessageNonCross.shares, fun m v => { m with shares := v }⟩,
   ⟨.chars 8, TradeMessageNonCross.stock, fun m v => { m with stock := v }⟩,
   ⟨.uint32, TradeMessageNonCross.price, fun m v => { m with price := v }⟩,
   ⟨.uint64, TradeMessageNonCross.matchNumber, fun m v => { m with matchNumber := v }⟩]

def tradeMessageCrossLayout : Layout TradeMessageCross :=
  [⟨.uint16, TradeMessageCross.stockLocate, fun m v => { m with stockLocate := v }⟩,
   ⟨.uint16, TradeMessageCross.trackingNumber, fun m v => { m with trackingNumber := v }⟩,
   ⟨.be48, TradeMessageCross.timestamp, fun m v => { m with timestamp := v }⟩,
   ⟨.uint32, TradeMessageCross.shares, fun m v => { m with shares := v }⟩,
   ⟨.chars 8, TradeMessageCross.stock, fun m v => { m with stock := v }⟩,
   ⟨.uint32, TradeMessageCross.crossPrice, fun m v => { m with crossPrice := v }⟩,
   ⟨.uint64, TradeMessageCross.matchNumber, fun m v => { m with matchNumber := v }⟩,
   ⟨.char, TradeMessageCross.crossType, fun m v => { m with crossType := v }⟩]

def brokenTradeLayout : Layout BrokenTrade :=
  [⟨.uint16, BrokenTrade.stockLocate, fun m v => { m with stockLocate := v }⟩,
   ⟨.uint16, BrokenTrade.trackingNumber, fun m v => { m with trackingNumber := v }⟩,
   ⟨.be48, BrokenTrade.timestamp, fun m v => { m with timestamp := v }⟩,
   ⟨.uint64, BrokenTrade.matchNumber, fun m v => { m with matchNumber := v }⟩]

def noiiLayout : Layout Noii :=
  [⟨.uint16, Noii.stockLocate, fun m v => { m with stockLocate := v }⟩,
   ⟨.uint16, Noii.trackingNumber, fun m v => { m with trackingNumber := v }⟩,
   ⟨.be48, Noii.timestamp, fun m v => { m with timestamp := v }⟩,
   ⟨.uint64, Noii.pairedShares, fun m v => { m with pairedShares := v }⟩,
   ⟨.uint64, Noii.imbalanceShares, fun m v => { m with imbalanceShares := v }⟩,
   ⟨.char, Noii.imbalanceDirection, fun m v => { m with imbalanceDirection := v }⟩,
   ⟨.chars 8, Noii.stock, fun m v => { m with stock := v }⟩,
   ⟨.uint32, Noii.farPrice, fun m v => { m with farPrice := v }⟩,
   ⟨.uint32, Noii.nearPrice, fun m v => { m with nearPrice := v }⟩,
   ⟨.uint32, Noii.currentReferencePrice, fun m v => { m with currentReferencePrice := v }⟩,
   ⟨.char, Noii.crossType, fun m v => { m with crossType := v }⟩,
   ⟨.char, Noii.priceVariationIndicator, fun m v => { m with priceVariationIndicator := v }⟩]

def directListingCapitalRaiseLayout : Layout DirectListingCapitalRaise :=
  [⟨.uint16, DirectListingCapitalRaise.stockLocate, fun m v => { m with stockLocate := v }⟩,
   ⟨.uint16, DirectListingCapitalRaise.trackingNumber, fun m v => { m with trackingNumber := v }⟩,
   ⟨.be48, DirectListingCapitalRaise.timestamp, fun m v => { m with timestamp := v }⟩,
   ⟨.chars 8, DirectListingCapitalRaise.stock, fun m v => { m with stock := v }⟩,
   ⟨.char, DirectListingCapitalRaise.openEligibilityStatus,
      fun m v => { m with openEligibilityStatus := v }⟩,
   ⟨.uint32, DirectListingCapitalRaise.minimumAllowablePrice,
      fun m v => { m with minimumAllowablePrice := v }⟩,
   ⟨.uint32, DirectListingCapitalRaise.maximumAllowablePrice,
      fun m v => { m with maximumAllowablePrice := v }⟩,
   ⟨.uint32, DirectListingCapitalRaise.nearExecutionPrice,
      fun m v => { m with nearExecutionPrice := v }⟩,
   ⟨.uint64, DirectListingCapitalRaise.nearExecutionTime,
      fun m v => { m with nearExecutionTime := v }⟩,
   ⟨.uint32, DirectListingCapitalRaise.lowerPriceRangeCollar,
      fun m v => { m with lowerPriceRangeCollar := v }⟩,
   ⟨.uint32, DirectListingCapitalRaise.upperPriceRangeCollar,
      fun m v => { m with upperPriceRangeCollar := v }⟩]

/-! ## The list of messages -/

/-- The entries of `ITCH_MESSAGE_LIST`, in its order. -/
inductive MessageType
  | addOrderNoMpid
  | orderCancel
  | orderDelete
  | orderReplace
  | systemEvent
  | stockDirectory
  | tradingAction
  | regSho
  | marketParticipantPos
  | mwcbDeclineLevel
  | mwcbStatus
  | ipoQuotationPeriodUpd
  | luldAuctionCollar
  | operationalHalt
  | addOrderMpid
  | orderExecuted
  | orderExecutedPrice
  | tradeMessageNonCross
  | tradeMessageCross
  | brokenTrade
  | noii
  | directListingCapitalRaise
deriving DecidableEq

namespace MessageType

/-- The message of each type. -/
abbrev Msg : MessageType → Type
  | addOrderNoMpid => AddOrderNoMpid
  | orderCancel => OrderCancel
  | orderDelete => OrderDelete
  | orderReplace => OrderReplace
  | systemEvent => SystemEvent
  | stockDirectory => StockDirectory
  | tradingAction => TradingAction
  | regSho => RegSho
  | marketParticipantPos => MarketParticipantPos
  | mwcbDeclineLevel => MwcbDeclineLevel
  | mwcbStatus => MwcbStatus
  | ipoQuotationPeriodUpd => IpoQuotationPeriodUpd
  | luldAuctionCollar => LuldAuctionCollar
  | operationalHalt => OperationalHalt
  | addOrderMpid => AddOrderMpid
  | orderExecuted => OrderExecuted
  | orderExecutedPrice => OrderExecutedPrice
  | tradeMessageNonCross => TradeMessageNonCross
  | tradeMessageCross => TradeMessageCross
  | brokenTrade => BrokenTrade
  | noii => Noii
  | directListingCapitalRaise => DirectListingCapitalRaise

/-- The layout of each type. -/
def layout : (ty : MessageType) → Layout ty.Msg
  | addOrderNoMpid => addOrderNoMpidLayout
  | orderCancel => orderCancelLayout
  | orderDelete => orderDeleteLayout
  | orderReplace => orderReplaceLayout
  | systemEvent => systemEventLayout
  | stockDirectory => stockDirectoryLayout
  | tradingAction => tradingActionLayout
  | regSho => regShoLayout
  | marketParticipantPos => marketParticipantPosLayout
  | mwcbDeclineLevel => mwcbDeclineLevelLayout
  | mwcbStatus => mwcbStatusLayout
  | ipoQuotationPeriodUpd => ipoQuotationPeriodUpdLayout
  | luldAuctionCollar => luldAuctionCollarLayout
  | operationalHalt => operationalHaltLayout
  | addOrderMpid => addOrderMpidLayout
  | orderExecuted => orderExecutedLayout
  | orderExecutedPrice => orderExecutedPriceLayout
  | tradeMessageNonCross => tradeMessageNonCrossLayout
  | tradeMessageCross => tradeMessageCrossLayout
  | brokenTrade => brokenTradeLayout
  | noii => noiiLayout
  | directListingCapitalRaise => directListingCapitalRaiseLayout

/-- The type byte. -/
def raw : MessageType → UInt8
  | addOrderNoMpid => 'A'.toUInt8
  | orderCancel => 'X'.toUInt8
  | orderDelete => 'D'.toUInt8
  | orderReplace => 'U'.toUInt8
  | systemEvent => 'S'.toUInt8
  | stockDirectory => 'R'.toUInt8
  | tradingAction => 'H'.toUInt8
  | regSho => 'Y'.toUInt8
  | marketParticipantPos => 'L'.toUInt8
  | mwcbDeclineLevel => 'V'.toUInt8
  | mwcbStatus => 'W'.toUInt8
  | ipoQuotationPeriodUpd => 'K'.toUInt8
  | luldAuctionCollar => 'J'.toUInt8
  | operationalHalt => 'h'.toUInt8
  | addOrderMpid => 'F'.toUInt8
  | orderExecuted => 'E'.toUInt8
  | orderExecutedPrice => 'C'.toUInt8
  | tradeMessageNonCross => 'P'.toUInt8
  | tradeMessageCross => 'Q'.toUInt8
  | brokenTrade => 'B'.toUInt8
  | noii => 'I'.toUInt8
  | directListingCapitalRaise => 'O'.toUInt8

/-- The timestamp, which every message has. -/
def timestamp : (ty : MessageType) → ty.Msg → UInt64
  | addOrderNoMpid => AddOrderNoMpid.timestamp
  | orderCancel => OrderCancel.timestamp
  | orderDelete => OrderDelete.timestamp
  | orderReplace => OrderReplace.timestamp
  | systemEvent => SystemEvent.timestamp
  | stockDirectory => StockDirectory.timestamp
  | tradingAction => TradingAction.timestamp
  | regSho => RegSho.timestamp
  | marketParticipantPos => MarketParticipantPos.timestamp
  | mwcbDeclineLevel => MwcbDeclineLevel.timestamp
  | mwcbStatus => MwcbStatus.timestamp
  | ipoQuotationPeriodUpd => IpoQuotationPeriodUpd.timestamp
  | luldAuctionCollar => LuldAuctionCollar.timestamp
  | operationalHalt => OperationalHalt.timestamp
  | addOrderMpid => AddOrderMpid.timestamp
  | orderExecuted => OrderExecuted.timestamp
  | orderExecutedPrice => OrderExecutedPrice.timestamp
  | tradeMessageNonCross => TradeMessageNonCross.timestamp
  | tradeMessageCross => TradeMessageCross.timestamp
  | brokenTrade => BrokenTrade.timestamp
  | noii => Noii.timestamp
  | directListingCapitalRaise => DirectListingCapitalRaise.timestamp

/-- The locate code, which is the first field of every message. -/
def stockLocate : (ty : MessageType) → ty.Msg → UInt16
  | .addOrderNoMpid => AddOrderNoMpid.stockLocate
  | .orderCancel => OrderCancel.stockLocate
  | .orderDelete => OrderDelete.stockLocate
  | .orderReplace => OrderReplace.stockLocate
  | .systemEvent => SystemEvent.stockLocate
  | .stockDirectory => StockDirectory.stockLocate
  | .tradingAction => TradingAction.stockLocate
  | .regSho => RegSho.locateCode
  | .marketParticipantPos => MarketParticipantPos.stockLocate
  | .mwcbDeclineLevel => MwcbDeclineLevel.stockLocate
  | .mwcbStatus => MwcbStatus.stockLocate
  | .ipoQuotationPeriodUpd => IpoQuotationPeriodUpd.stockLocate
  | .luldAuctionCollar => LuldAuctionCollar.stockLocate
  | .operationalHalt => OperationalHalt.stockLocate
  | .addOrderMpid => AddOrderMpid.stockLocate
  | .orderExecuted => OrderExecuted.stockLocate
  | .orderExecutedPrice => OrderExecutedPrice.stockLocate
  | .tradeMessageNonCross => TradeMessageNonCross.stockLocate
  | .tradeMessageCross => TradeMessageCross.stockLocate
  | .brokenTrade => BrokenTrade.stockLocate
  | .noii => Noii.stockLocate
  | .directListingCapitalRaise => DirectListingCapitalRaise.stockLocate

/-- `ITCH_MESSAGE_LIST` -/
def messageList : List MessageType :=
  [addOrderNoMpid, orderCancel, orderDelete, orderReplace, systemEvent, stockDirectory,
   tradingAction, regSho, marketParticipantPos, mwcbDeclineLevel, mwcbStatus,
   ipoQuotationPeriodUpd, luldAuctionCollar, operationalHalt, addOrderMpid, orderExecuted,
   orderExecutedPrice, tradeMessageNonCross, tradeMessageCross, brokenTrade, noii,
   directListingCapitalRaise]

instance (ty : MessageType) : Inhabited ty.Msg := by cases ty <;> exact ⟨default⟩

end MessageType

end ItchIngestion.ITCH
