import ItchIngestion.Engine.MarketView
import ItchIngestion.Engine.Wire

/-! # From the feed to the strategies

The feed writes the messages of a market, and the packets carry them. Behind the ingestion loop the
handler has published the best levels of that market (`feed_shown`); and with the strategies at work, in
every order of the events, what a strategy believes are the best levels after some of the messages that
the feed has written (`strategies_follow_feed`). A timestamp that is not read back changes neither.
-/
namespace ItchIngestion.Engine
open Library ITCH OB Telemetry
set_option autoImplicit false

/-! ## The market of the messages read back -/

section ReadBack
variable (instruments : List InstrumentConfig) (junk : (ty : MessageType) → ty.Msg)

theorem hear_readBack (M : Market) (m : Message) :
    M.hear instruments (m.readBack junk) = M.hear instruments m := by
  obtain ⟨hlocate, horder, hstock⟩ := (readBack_same junk m).said
  unfold Market.hear
  rw [hlocate, horder, hstock]

theorem after_readBack (ms : List Message) :
    Market.after instruments (ms.map (Message.readBack junk)) = Market.after instruments ms := by
  rw [Market.after, List.foldl_map]
  exact congrArg (fun f => ms.foldl f Market.closed)
    (funext fun M => funext fun m => hear_readBack instruments junk M m)

theorem validFeed_readBack {M : Market} {ms : List Message} (hfeed : Market.ValidFeed instruments M ms) :
    Market.ValidFeed instruments M (ms.map (Message.readBack junk)) := by
  induction ms generalizing M with
  | nil => exact trivial
  | cons m ms ih =>
    obtain ⟨hlocate, horder, -⟩ := (readBack_same junk m).said
    obtain ⟨hsound, hrest⟩ := hfeed
    refine ⟨fun op orders hop horders => hsound op orders (horder.trans hop) (hlocate ▸ horders), ?_⟩
    rw [hear_readBack]
    exact ih hrest

theorem ownCode_readBack {q : QueueId} {L : UInt16} {ms : List Message}
    (hown : OwnCode instruments q L ms) : OwnCode instruments q L (ms.map (Message.readBack junk)) := by
  intro m hm stock inst hstock hinst
  obtain ⟨written, hwritten, rfl⟩ := List.mem_map.mp hm
  obtain ⟨hlocate, -, hsame⟩ := (readBack_same junk written).said
  rw [← hlocate]
  exact hown written hwritten stock inst (hsame.trans hstock) hinst

end ReadBack

/-! ## Behind the ingestion loop -/

/-- **Strategies follow the feed.** The bursts are read from the frames of a market. In every order of
the events, what a strategy believes of the code of its queue are the best levels of the live orders
after some of the messages as they were written, none before the listing; after all of them at the end. -/
theorem strategies_follow_feed {cfg : Config} {t0 : UInt64} {data : QueueId → ℕ → Words}
    {es : List Event} {s : System} {c : ℕ} {th : Thread} {L : UInt16}
    (hrun : run (System.step cfg) (System.init cfg t0 data) es = .ok s)
    (hfew : s.handler.pushed.length < 2 ^ 63) (hqueues : ∀ c ∈ cfg.instruments, c.queue ≠ none)
    {junk : (ty : MessageType) → ty.Msg} {bursts : List (List Message)}
    (hreceived : s.bursts = bursts.map fun ms => Message.ofFrames junk (ms.map Message.frame))
    (hfeed : Market.ValidFeed cfg.instruments .closed bursts.flatten) (hth : s.threads[c]? = some th)
    (hown : OwnCode cfg.instruments th.queue L bursts.flatten) :
    ∃ pre post, bursts.flatten = pre ++ post ∧
      (∀ S, S = Side.Bid ∨ S = Side.Ask →
        (Market.after cfg.instruments pre).Shows L S (believed th.updates S)) ∧
      (s.inbox = [] → th.updates = (s.handler.pushedTo th.queue).filter (fun m => m ≠ .stop) →
        post = []) := by
  have hread : s.bursts.flatten = bursts.flatten.map (Message.readBack junk) := by
    rw [hreceived, List.map_flatten]
    exact congrArg List.flatten (List.map_congr_left fun ms _ => ofFrames_frame junk ms)
  obtain ⟨pre, post, hsplit, hbest, hall⟩ := (System.run_inv hrun hfew).follows hfew hqueues
    (hread ▸ validFeed_readBack cfg.instruments junk hfeed) hth
    (hread ▸ ownCode_readBack cfg.instruments junk hown)
  obtain ⟨pre, post, hwritten, rfl, rfl⟩ := List.map_eq_append_iff.mp (hread.symm.trans hsplit)
  refine ⟨pre, post, hwritten, fun S hS => ?_, fun hinbox htaken => ?_⟩
  · rw [← after_readBack cfg.instruments junk]
    exact hbest S hS
  · exact List.map_eq_nil_iff.mp (hall hinbox htaken)

theorem bidMessages_frames : bidMessages.map Message.frame = [directoryFrame, bidFrame 1 10] := rfl

theorem strategies_follow_feed_sample : ∃ s th,
    run (System.step oneStrategy) (System.init oneStrategy 0 fun _ _ _ => 0) bidEvents = .ok s ∧
    s.threads[0]? = some th ∧
    OrderBook.BestOf (Orders.emplace ∅ 1 ⟨5, 10, Side.Bid⟩) Side.Bid (believed th.updates Side.Bid) := by
  obtain ⟨s, th, hrun, hth, hqueue, hupdates, -, hpushed, hinbox, -, hbursts⟩ := bid_run
  obtain ⟨pre, post, hsplit, hbest, hall⟩ := @strategies_follow_feed oneStrategy 0 (fun _ _ _ => 0) _ s 0
    th 9 hrun (by rw [hpushed]; decide) (by decide) (fun _ => default) [bidMessages]
    (by rw [hbursts, ← bidMessages_frames]; rfl) bidMessages_valid hth
    (by rw [hqueue]; exact bidMessages_own)
  have hpost := hall hinbox (by rw [Handler.pushedTo, hpushed, hqueue, hupdates]; rfl)
  rw [hpost, List.append_nil] at hsplit
  have hshows := hbest Side.Bid (Or.inl rfl)
  rw [← hsplit] at hshows
  exact ⟨s, th, hrun, hth, hshows⟩

end ItchIngestion.Engine
