import ItchIngestion.Engine.Ingestor
import ItchIngestion.Engine.Stop

/-! # The handler in the ingestion loop

`engine` is the handler as the parser calls it. Its state is the handler, the fault that has stopped
it, if one has, and a clock: the readings of the time stamp counter, one for each `handle_before`.

The loop asks for `should_stop` between two bursts only. So it takes the bursts up to the one with the
first end event as a whole (`taken`), and what it leaves is the handler after these messages
(`ingestMessages_taken`).
-/
namespace ItchIngestion.Engine
open Library ITCH OB
set_option autoImplicit false

abbrev Message := (ty : MessageType) × ty.Msg

/-- The handler in its session: the clock, the number of its readings, and a fault. -/
structure Session where
  clock : ℕ → UInt64
  reads : ℕ
  handler : Handler
  fault : Option Fault

namespace Session

def start (clock : ℕ → UInt64) (handler : Handler) : Session := ⟨clock, 0, handler, none⟩

/-- Nothing happens behind a fault. -/
def act (f : Handler → Except Fault Handler) (s : Session) : Session :=
  match s.fault with
  | some _ => s
  | none =>
    match f s.handler with
    | .ok handler => { s with handler }
    | .error fault => { s with fault := some fault }

/-- Every message takes the next reading of the clock. -/
def handleBefore (s : Session) : Session :=
  act (fun h => .ok (h.handleBefore (s.clock s.reads))) { s with reads := s.reads + 1 }

def shouldStop (s : Session) : Bool := s.handler.shouldStop

/-- `handle_before`, the overload for the message if there is one, and `handle_after`. -/
def hear (s : Session) (m : Message) : Session :=
  match Handler.handle m.1 with
  | none => s.handleBefore
  | some handle => s.handleBefore.act (handle m.2)

end Session

/-- The handler as the parser sees it. -/
def engine : SpecificHandler Session where
  handleBefore := Session.handleBefore
  handle ty := (Handler.handle ty).map fun handle m => Session.act (handle m)
  handleAfter s := s

/-! ## Messages -/

namespace Message

/-- The end-of-messages event. -/
def isLast : Message → Bool
  | ⟨.systemEvent, msg⟩ => msg.eventCode = 'C'.toUInt8
  | _ => false

/-- The message of a frame of a known type. -/
def ofFrame (junk : (ty : MessageType) → ty.Msg) (f : Frame) : Option Message :=
  (MessageType.ofRaw f.rawType).map fun ty =>
    ⟨ty, (parseItch ty.layout (junk ty) (Mem.ofList f.body) 0).getD (junk ty)⟩

/-- The messages that the parser makes of frames. -/
def ofFrames (junk : (ty : MessageType) → ty.Msg) (frames : List Frame) : List Message :=
  frames.filterMap (ofFrame junk)

/-- The messages with the readings of the clock. -/
def stamp (clock : ℕ → UInt64) (ms : List Message) : List Delivery :=
  ms.mapIdx fun i m => ⟨clock i, m.1, m.2⟩

theorem stamp_concat (clock : ℕ → UInt64) (ms : List Message) (m : Message) :
    stamp clock (ms ++ [m]) = stamp clock ms ++ [⟨clock ms.length, m.1, m.2⟩] :=
  List.mapIdx_concat

theorem isLast_iff {m : Message} (tsc : UInt64) : m.isLast = true ↔ Delivery.IsLast ⟨tsc, m.1, m.2⟩ := by
  obtain ⟨ty, msg⟩ := m
  constructor
  · intro h
    cases ty
    case systemEvent => exact ⟨msg, rfl, of_decide_eq_true h⟩
    all_goals cases h
  · rintro ⟨msg', hmsg, hC⟩
    cases ty
    case systemEvent =>
      cases hmsg
      exact decide_eq_true hC
    all_goals cases hmsg

end Message

/-- What the loop takes of the bursts that it is offered. -/
def taken : List (List Message) → List Message
  | [] => []
  | ms :: bursts => ms ++ if ms.any Message.isLast then [] else taken bursts

/-! ## The session of a run -/

namespace Session
variable {s : Session} {m : Message} {ms : List Message}

theorem hear_frozen {fault : Fault} (hs : s.fault = some fault) (m : Message) :
    s.hear m = { s with reads := s.reads + 1 } := by
  have hbefore : s.handleBefore = { s with reads := s.reads + 1 } := by
    rw [handleBefore, act, hs]
  rw [hear]
  split
  · exact hbefore
  · rw [hbefore, act, hs]

theorem hear_deliver (hs : s.fault = none) (m : Message) : s.hear m =
    match deliver s.handler ⟨s.clock s.reads, m.1, m.2⟩ with
    | .ok h => ⟨s.clock, s.reads + 1, h, none⟩
    | .error fault =>
      ⟨s.clock, s.reads + 1, s.handler.handleBefore (s.clock s.reads), some fault⟩ := by
  have hbefore : s.handleBefore =
      ⟨s.clock, s.reads + 1, s.handler.handleBefore (s.clock s.reads), none⟩ := by
    rw [handleBefore, act, hs]
  rw [hear, deliver]
  cases Handler.handle m.1 with
  | none => exact hbefore
  | some handle =>
    dsimp only
    rw [hbefore, act]

/-- What a session has come to: the handler after the messages, or the one that a message made
fail. -/
inductive After (clock : ℕ → UInt64) (h₀ : Handler) (ms : List Message) (s : Session) : Prop
  | going (hclock : s.clock = clock) (hreads : s.reads = ms.length) (hfault : s.fault = none)
      (hrun : run deliver h₀ (Message.stamp clock ms) = .ok s.handler)
  | failed (pre post : List Delivery) (d : Delivery) (h : Handler) (fault : Fault)
      (hfault : s.fault = some fault) (heq : Message.stamp clock ms = pre ++ d :: post)
      (hrun : run deliver h₀ pre = .ok h) (hfail : deliver h d = .error fault)
      (hhandler : s.handler = h.handleBefore d.tsc)

theorem After.hear {clock : ℕ → UInt64} {h₀ : Handler} (hs : After clock h₀ ms s) (m : Message) :
    After clock h₀ (ms ++ [m]) (s.hear m) := by
  cases hs with
  | going hclock hreads hfault hrun =>
    have heq := hear_deliver hfault m
    rw [hclock, hreads] at heq
    cases hd : deliver s.handler ⟨clock ms.length, m.1, m.2⟩ with
    | ok h =>
      rw [hd] at heq
      rw [heq]
      refine .going rfl (by simp) rfl ?_
      rw [Message.stamp_concat]
      exact (run_concat hrun _).trans hd
    | error fault =>
      rw [hd] at heq
      rw [heq]
      exact .failed _ [] _ s.handler fault rfl (Message.stamp_concat clock ms m) hrun hd rfl
  | failed pre post d h fault hfault heq hrun hfail hhandler =>
    rw [hear_frozen hfault]
    refine .failed pre (post ++ [⟨clock ms.length, m.1, m.2⟩]) d h fault hfault ?_ hrun hfail hhandler
    rw [Message.stamp_concat, heq, List.append_assoc, List.cons_append]

theorem after_start (clock : ℕ → UInt64) (h₀ : Handler) (ms : List Message) :
    After clock h₀ ms (ms.foldl hear (start clock h₀)) := by
  induction ms using List.reverseRecOn with
  | nil => exact .going rfl rfl rfl rfl
  | append_singleton ms m ih =>
    rw [List.foldl_append]
    exact ih.hear m

/-- Only an end event stops the loop, and it does unless a fault keeps it from the handler. -/
theorem hear_shouldStop (s : Session) (m : Message) :
    ((s.hear m).shouldStop → s.shouldStop || m.isLast) ∧
      ((s.hear m).fault = none → (s.hear m).shouldStop = (s.shouldStop || m.isLast)) := by
  cases hs : s.fault with
  | some fault =>
    rw [hear_frozen hs]
    refine ⟨fun h => ?_, fun h => ?_⟩
    · exact (Bool.or_eq_true _ _).mpr (Or.inl h)
    · exact absurd (hs.symm.trans h) (by simp)
  | none =>
    rw [hear_deliver hs]
    cases hd : deliver s.handler ⟨s.clock s.reads, m.1, m.2⟩ with
    | error fault =>
      refine ⟨fun h => ?_, fun h => by cases h⟩
      exact (Bool.or_eq_true _ _).mpr (Or.inl h)
    | ok h =>
      have heq : h.lastMessage = (s.handler.lastMessage || m.isLast) := by
        have hlast := @Message.isLast_iff m (s.clock s.reads)
        cases deliver_cases hd with
        | last hl hdirectory heq => rw [heq, hlast.mpr hl, Bool.or_true]
        | quiet recordPrices hl hdirectory heq =>
          rw [heq, Bool.eq_false_iff.mpr (mt hlast.mp hl), Bool.or_false]
        | bound msg cfg hl hdirectory hlocate hcfg hfree heq =>
          rw [heq, Bool.eq_false_iff.mpr (mt hlast.mp hl), Bool.or_false]
        | traded maxOrders op i book book' change ps hl hdirectory hbound hbook happly hps heq =>
          rw [heq, Bool.eq_false_iff.mpr (mt hlast.mp hl), Bool.or_false]
      exact ⟨fun h => heq ▸ h, fun _ => heq⟩

theorem foldl_frozen {fault : Fault} (hs : s.fault = some fault) (ms : List Message) :
    (ms.foldl hear s).handler = s.handler ∧ (ms.foldl hear s).fault = some fault := by
  induction ms generalizing s with
  | nil => exact ⟨rfl, hs⟩
  | cons m ms ih =>
    rw [List.foldl_cons, hear_frozen hs]
    exact @ih { s with reads := s.reads + 1 } hs

theorem foldl_shouldStop (s : Session) (ms : List Message) :
    ((ms.foldl hear s).shouldStop → s.shouldStop || ms.any Message.isLast) ∧
      ((ms.foldl hear s).fault = none →
        (ms.foldl hear s).shouldStop = (s.shouldStop || ms.any Message.isLast)) := by
  induction ms generalizing s with
  | nil => exact ⟨fun h => (Bool.or_false _).symm ▸ h, fun _ => (Bool.or_false _).symm⟩
  | cons m ms ih =>
    obtain ⟨honly, hdoes⟩ := hear_shouldStop s m
    obtain ⟨honly', hdoes'⟩ := ih (s.hear m)
    rw [List.foldl_cons, List.any_cons, ← Bool.or_assoc]
    refine ⟨fun h => ?_, fun hfault => ?_⟩
    · exact (Bool.or_eq_true _ _).mpr (((Bool.or_eq_true _ _).mp (honly' h)).imp_left honly)
    · rw [hdoes' hfault, hdoes]
      by_contra hne
      obtain ⟨fault, hsome⟩ := Option.ne_none_iff_exists'.mp hne
      rw [(foldl_frozen hsome ms).2] at hfault
      cases hfault

end Session

/-! ## Packets and bursts -/

/-- A complete packet of complete messages. -/
structure Carries (m : Mbuf) (frames : List Frame) : Prop where
  complete : m.Complete
  known : ∀ f ∈ frames, f.Known
  filled : ∀ f ∈ frames, f.Filled engine
  length : (frames.flatMap Frame.bytes).length = m.itchBytes
  holds : m.mem.Holds itchStart (frames.flatMap Frame.bytes)

section Loop
variable {junk : (ty : MessageType) → ty.Msg}

theorem engine_handle (ty : MessageType) :
    engine.handle ty = (Handler.handle ty).map fun handle m => Session.act (handle m) := rfl

theorem engine_frame {f : Frame} (hknown : f.Known) (hfilled : f.Filled engine) (s : Session) :
    ∃ m, Message.ofFrame junk f = some m ∧ engine.replay s (f.calls engine junk) = s.hear m := by
  obtain ⟨ty, hraw⟩ := hknown
  have hty : MessageType.ofRaw f.rawType = some ty := MessageType.ofRaw_eq_some.mpr hraw
  refine ⟨_, by rw [Message.ofFrame, hty]; rfl, ?_⟩
  rw [Frame.calls, Frame.handleCalls, hty, Session.hear]
  dsimp only
  cases hhandle : Handler.handle ty with
  | none =>
    rw [engine_handle, hhandle]
    rfl
  | some handle =>
    have hsome : (engine.handle ty).isSome := by
      rw [engine_handle, hhandle]
      rfl
    obtain ⟨m, hm, -⟩ := parseItch_spec ty.lawful
      (loads_of_body (Mem.holds_ofList f.body) (hfilled ty hraw hsome)) (junk ty)
    rw [if_pos hsome, hm]
    show engine.exec (engine.exec s.handleBefore (.handle ty m)) .handleAfter = _
    rw [SpecificHandler.exec, SpecificHandler.exec, engine_handle, hhandle]
    rfl

theorem engine_frames {frames : List Frame} (hknown : ∀ f ∈ frames, f.Known)
    (hfilled : ∀ f ∈ frames, f.Filled engine) (s : Session) :
    engine.replay s (frames.flatMap (Frame.calls engine junk)) =
      (Message.ofFrames junk frames).foldl Session.hear s := by
  induction frames generalizing s with
  | nil => rfl
  | cons f frames ih =>
    obtain ⟨m, hm, hreplay⟩ := @engine_frame junk f (hknown f List.mem_cons_self)
      (hfilled f List.mem_cons_self) s
    rw [List.flatMap_cons, SpecificHandler.replay_append, hreplay, Message.ofFrames,
      List.filterMap_cons_some hm, List.foldl_cons]
    exact ih (fun f hf => hknown f (List.mem_cons_of_mem _ hf))
      (fun f hf => hfilled f (List.mem_cons_of_mem _ hf)) _

theorem ingestPackets_carries {bufs : List Mbuf} {packets : List (List Frame)}
    (hall : List.Forall₂ Carries bufs packets) (v : Ingestion Session) :
    ∃ v', ingestPackets (parseRegion engine junk) bufs v = .returned v' ∧
      v'.handler = (Message.ofFrames junk packets.flatten).foldl Session.hear v.handler := by
  induction hall generalizing v with
  | nil => exact ⟨v, rfl, rfl⟩
  | @cons m frames bufs packets hm hall ih =>
    obtain ⟨v₁, hrun₁, hv₁⟩ := @ingestPacket_frames _ engine junk m hm.complete frames hm.known hm.filled
      hm.length hm.holds v
    obtain ⟨v₂, hrun₂, hv₂⟩ := ih v₁
    refine ⟨v₂, by rw [ingestPackets, hrun₁, Outcome.andThen, hrun₂], ?_⟩
    rw [hv₂, hv₁, engine_frames hm.known hm.filled, List.flatten_cons, Message.ofFrames,
      Message.ofFrames, Message.ofFrames, List.filterMap_append, List.foldl_append]

/-- The bursts of packets that carry the frames. -/
def Carried (bursts : List Burst) (frames : List (List (List Frame))) : Prop :=
  List.Forall₂ (fun b packets => List.Forall₂ Carries b.bufs packets) bursts frames

theorem ingestMessages_stopped (hz : UInt64) (bursts : List Burst) {v : Ingestion Session}
    (hstop : v.handler.shouldStop = true) :
    ingestMessages (parseRegion engine junk) Session.shouldStop hz bursts v = .returned v := by
  cases bursts with
  | nil => rfl
  | cons b bursts => rw [ingestMessages, if_pos hstop]

/-- **The loop takes whole bursts**, the last one is the one of the end event. -/
theorem ingestMessages_taken {bursts : List Burst} {frames : List (List (List Frame))}
    (hall : Carried bursts frames) (hz : UInt64) {v : Ingestion Session}
    (hlive : v.handler.shouldStop = false) :
    ∃ v', ingestMessages (parseRegion engine junk) Session.shouldStop hz bursts v = .returned v' ∧
      v'.handler.handler = ((taken (frames.map fun packets =>
        Message.ofFrames junk packets.flatten)).foldl Session.hear v.handler).handler := by
  induction hall generalizing v with
  | nil => exact ⟨v, rfl, rfl⟩
  | @cons b packets bursts frames hb hall ih =>
    obtain ⟨v₁, hrun, hv₁⟩ := @ingestPackets_carries junk b.bufs packets hb
      { v with pkts := v.pkts + UInt64.ofNat b.bufs.length }
    have hv₁ : v₁.handler = (Message.ofFrames junk packets.flatten).foldl Session.hear v.handler := hv₁
    have hlog := logProgress_handler hz b.now v₁
    have hloop : ingestMessages (parseRegion engine junk) Session.shouldStop hz (b :: bursts) v =
        ingestMessages (parseRegion engine junk) Session.shouldStop hz bursts
          (logProgress hz b.now v₁) := by
      rw [ingestMessages, if_neg (by rw [hlive]; decide), ingestBurst, hrun]
      rfl
    rw [hloop, List.map_cons, taken]
    generalize Message.ofFrames junk packets.flatten = ms at hv₁ ⊢
    obtain ⟨honly, hdoes⟩ := Session.foldl_shouldStop v.handler ms
    rw [hlive, Bool.false_or] at honly hdoes
    rw [← hv₁, ← hlog] at honly hdoes
    cases hlast : ms.any Message.isLast with
    | false =>
      have hlive₁ : (logProgress hz b.now v₁).handler.shouldStop = false := by
        rw [Bool.eq_false_iff]
        intro hstop
        rw [hlast] at honly
        exact absurd (honly hstop) (by decide)
      obtain ⟨v', hrun', hv'⟩ := ih hlive₁
      refine ⟨v', hrun', ?_⟩
      rw [hv', hlog, hv₁, if_neg (by decide), List.foldl_append]
    | true =>
      rw [if_pos rfl, List.append_nil]
      by_cases hstop : (logProgress hz b.now v₁).handler.shouldStop = true
      · exact ⟨_, ingestMessages_stopped hz bursts hstop, by rw [hlog, hv₁]⟩
      · obtain ⟨fault, hfault⟩ : ∃ fault, (logProgress hz b.now v₁).handler.fault = some fault := by
          refine Option.ne_none_iff_exists'.mp fun hnone => hstop ?_
          rw [hdoes hnone, hlast]
        obtain ⟨v', hrun', hv'⟩ := ih (Bool.eq_false_iff.mpr hstop)
        refine ⟨v', hrun', ?_⟩
        rw [hv', (Session.foldl_frozen hfault _).1, hlog, hv₁]

end Loop

/-! ## Packets of given messages -/

/-- The packet of a feed that sends these frames: zeros in the headers, but for the length. -/
def packet (frames : List Frame) : Mbuf :=
  let payload := frames.flatMap Frame.bytes
  Mbuf.ofBytes (List.replicate 38 0 ++ (toBigEndian 2 (28 + payload.length) ++
    (List.replicate 22 0 ++ payload)))

theorem holds_ofBytes {bs : List UInt8} (hlen : bs.length ≤ dataRoom) :
    (Mbuf.ofBytes bs).mem.Holds 0 bs := by
  intro i b hb
  have hi := (List.getElem?_eq_some_iff.mp hb).1
  show (if 0 + i < dataRoom then some (bs.getD (0 + i) 0) else none) = some b
  rw [Nat.zero_add, if_pos (by omega), List.getD_eq_getElem?_getD, hb]
  rfl

/-- **Whatever fits in a packet can be sent.** -/
theorem packet_carries {frames : List Frame} (hknown : ∀ f ∈ frames, f.Known)
    (hfilled : ∀ f ∈ frames, f.Filled engine)
    (hlen : itchStart + (frames.flatMap Frame.bytes).length ≤ dataRoom) :
    Carries (packet frames) frames := by
  have hstart : itchStart = 62 := rfl
  have hroom : dataRoom = 2048 := rfl
  have hudp : udpHdr = 34 := rfl
  have h8 : sizeofUdpHdr = 8 := rfl
  generalize hpayload : frames.flatMap Frame.bytes = payload at hlen
  generalize hbs : List.replicate 38 (0 : UInt8) ++ (toBigEndian 2 (28 + payload.length) ++
    (List.replicate 22 0 ++ payload)) = bs
  have hpacket : packet frames = Mbuf.ofBytes bs := by rw [packet, hpayload, hbs]
  have htotal : bs.length = 62 + payload.length := by
    rw [← hbs]
    simp only [List.length_append, List.length_replicate, length_toBigEndian]
    omega
  have hholds := @holds_ofBytes bs (by omega)
  rw [← hpacket] at hholds
  have hdata : (packet frames).dataLen.toNat = 62 + payload.length := by
    rw [hpacket]
    show (UInt16.ofNat bs.length).toNat = _
    rw [UInt16.toNat_ofNat_of_lt' (by rw [htotal, UInt16.size]; omega), htotal]
  have hdgram : (packet frames).dgramLen = 28 + payload.length := by
    rw [← hbs] at hholds
    have hfield := hholds.right.left
    rw [List.length_replicate, toBigEndian_two] at hfield
    have h₀ : (packet frames).mem 38 = _ := hfield 0 _ rfl
    have h₁ : (packet frames).mem 39 = _ := hfield 1 _ rfl
    have hvalue : bigEndian (toBigEndian 2 (28 + payload.length)) = 28 + payload.length :=
      bigEndian_toBigEndian (by omega)
    rw [toBigEndian_two] at hvalue
    rw [← hvalue, Mbuf.dgramLen]
    simp only [Mbuf.byte, h₀, h₁, Option.get_some]
  have hcomplete : (packet frames).Complete := by
    rw [Mbuf.Complete, hdgram, hdata]
    omega
  refine ⟨hcomplete, hknown, hfilled, ?_, ?_⟩
  · rw [hpayload, Mbuf.itchBytes, hdgram, hdata]
    omega
  · rw [← hbs] at hholds
    have hpart := hholds.right.right.right
    simp only [List.length_replicate, length_toBigEndian] at hpart
    rw [hpayload]
    exact hpart

end ItchIngestion.Engine
