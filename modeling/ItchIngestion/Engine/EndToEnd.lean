import ItchIngestion.Engine.Interleaving
import ItchIngestion.Engine.AfterStop
import ItchIngestion.Engine.TopOfBook

/-! # From the messages to the strategies

In every order of the events, a strategy has taken the beginning of what the handler pushed to its
queue, in order, up to the first `Stop` (`strategy_receives`), and what it believes of a book is how
the book was after some of the messages (`strategy_view`). The main thread among the others does what
the ingestion loop does alone (`system_ingests`).
-/
namespace ItchIngestion.Engine
open Library ITCH OB Telemetry
set_option autoImplicit false

/-- The updates that a thread has taken. -/
def Thread.updates (th : Thread) : List StrategyMsg := th.samples.map fun x => .ofWords x.msg

/-- The messages that the handler has pushed to a queue. -/
def Handler.pushedTo (h : Handler) (q : QueueId) : List StrategyMsg :=
  (h.pushed.filter fun p => p.queue = q).map fun p => p.msg

/-! ## A bid on its way -/

/-- A packet of the directory message and one more, and the first of them is handled. -/
def arrivalEvents (frame : Frame) : List Event :=
  [.makeConsumer, .burst (Message.ofFrames (fun _ => default) [directoryFrame, frame]), .message 5]

/-- The events of one push. -/
def pushEvents : List Event :=
  .push :: ([.loadWriter, .loadVersion, .storeOdd, .writeWord .type, .writeWord .t0, .writeWord .qty,
    .writeWord .price, .writeWord .side, .storeEven, .storeWriter] : List QueueAction).map .produce

/-- A `pop` that finds its message, which is taken at 3005. -/
def popEvents : List Event :=
  [.poll 0 fun _ => 0] ++
  ([.loadFirst 0, .copyWord 0 .side, .copyWord 0 .price, .copyWord 0 .qty, .copyWord 0 .t0,
    .copyWord 0 .type, .loadSecond 0] : List QueueAction).map (.consume 0) ++
  [.take 0 3005]

/-- The strategy takes the bid 3000 cycles behind its packet. -/
def bidEvents : List Event :=
  arrivalEvents (bidFrame 1 10) ++ [.message 5] ++ pushEvents ++ popEvents

/-- One instrument, one consumer of its queue, and a counter of 3 GHz. -/
def oneStrategy : Config := ⟨[nvda], [0], 3000000000⟩

theorem bid_run : ∃ s th,
    run (System.step oneStrategy) (System.init oneStrategy 0 fun _ _ _ => 0) bidEvents = .ok s ∧
    s.threads[0]? = some th ∧ th.queue = 0 ∧ th.updates = [.bookUpdate 5 5 10 Side.Bid] ∧
    th.hist 1000 = 1 ∧ s.handler.pushed = [⟨9, 0, .bookUpdate 5 5 10 Side.Bid⟩] ∧ s.inbox = [] ∧
    s.handler.locateToQueue = Function.update (fun _ => none) 9 (some 0) ∧
    s.bursts = [Message.ofFrames (fun _ => default) [directoryFrame, bidFrame 1 10]] :=
  ⟨_, _, rfl, rfl, rfl, rfl, rfl, rfl, rfl, rfl, rfl⟩

/-! ## What a strategy receives -/

section Receives
variable {cfg : Config} {t0 : UInt64} {data : QueueId → ℕ → Words} {s : System} {c : ℕ} {th : Thread}

theorem ofWords_heard (th : Thread) :
    th.heard.map StrategyMsg.ofWords = th.updates ++ th.loop.pending.map StrategyMsg.ofWords := by
  rw [Thread.heard, List.map_append, List.map_map]
  rfl

theorem System.Inv.heard_begins (h : s.Inv cfg t0 data) (hfew : s.handler.pushed.length < 2 ^ 63)
    (hth : s.threads[c]? = some th) :
    th.heard.map StrategyMsg.ofWords <+: s.handler.pushedTo th.queue := by
  obtain ⟨sent, heq, hqueues⟩ := h.sent
  have hheard := ((h.attended c th hth).heard_begins (h.queue_inv hfew _)).map StrategyMsg.ofWords
  have hid : StrategyMsg.ofWords ∘ StrategyMsg.words = id := funext StrategyMsg.ofWords_words
  rw [hqueues, List.map_map, hid, List.map_id] at hheard
  rw [Handler.pushedTo, heq, List.filter_append, List.map_append]
  exact hheard.trans (List.prefix_append _ _)

/-- **A strategy receives what was pushed to its queue**: nothing is lost, repeated or reordered; it
leaves at the first `Stop` and not before; and every update is in one counter of its histogram. -/
theorem strategy_receives {es : List Event}
    (hrun : run (System.step cfg) (System.init cfg t0 data) es = .ok s)
    (hfew : s.handler.pushed.length < 2 ^ 63) (hth : s.threads[c]? = some th) :
    cfg.consumers[c]? = some th.queue ∧
      th.updates ++ th.loop.pending.map StrategyMsg.ofWords <+: s.handler.pushedTo th.queue ∧
      .stop ∉ th.updates ∧
      (∑ i ∈ Finset.range (maxLatency.toNat + 1), (th.hist i).toNat) + th.skippedLatencies.toNat =
        th.updates.length := by
  have hinv := System.run_inv hrun hfew
  have hatt := hinv.attended c th hth
  refine ⟨hatt.queue, ?_, ?_, ?_⟩
  · rw [← ofWords_heard]
    exact hinv.heard_begins hfew hth
  · intro hstop
    obtain ⟨x, hx, heq⟩ := List.mem_map.mp hstop
    have htype := (hatt.timely x hx).update
    rw [StrategyMsg.ofWords, if_neg htype] at heq
    cases heq
  · rw [hatt.counted.total, Thread.updates, List.length_map]

end Receives

theorem strategy_receives_sample : ∃ s th,
    run (System.step oneStrategy) (System.init oneStrategy 0 fun _ _ _ => 0) bidEvents = .ok s ∧
    s.threads[0]? = some th ∧ th.updates = [.bookUpdate 5 5 10 Side.Bid] ∧ .stop ∉ th.updates := by
  obtain ⟨s, th, hrun, hth, -, hupdates, -, hpushed, -⟩ := bid_run
  obtain ⟨-, -, hstop, -⟩ := strategy_receives hrun (by rw [hpushed]; decide) hth
  exact ⟨s, th, hrun, hth, hupdates, hstop⟩

/-! ## Readings of the time stamp counters -/

section Readings
variable {cfg : Config} {t0 : UInt64} {data : QueueId → ℕ → Words} {es : List Event} {s s' : System}
  {c : ℕ} {th : Thread} {x : Sample}

end Readings

/-- The level that a message names for a side. -/
def StrategyMsg.level? (S : Side) : StrategyMsg → Option Level
  | .bookUpdate _ qty price side => if side = S then some ⟨qty, price⟩ else none
  | .stop => none

/-- The level in the last update of a side, or the empty level. -/
def believed (ms : List StrategyMsg) (S : Side) : Level :=
  ((ms.filterMap (StrategyMsg.level? S)).getLast?).getD ⟨0, 0⟩

/-- The best level of the book of a code; a code without a book has none. -/
def Handler.top (h : Handler) (L : UInt16) (S : Side) : Level :=
  match (h.locateToBook L).bind fun i => h.books[i]? with
  | some book => book.top S
  | none => ⟨0, 0⟩

section View
variable {h : Handler} {t0 : UInt64} {instruments : List InstrumentConfig} {ds : List Delivery}
  {L : UInt16} {S : Side}

theorem top_eq_lastUpdate (hcur : Current h) (hS : S = Side.Bid ∨ S = Side.Ask) :
    h.top L S = lastUpdate h.pushed L S := by
  unfold Handler.top
  cases hL : h.locateToBook L with
  | none => exact (lastUpdate_none (hcur.unbound L S hL)).symm
  | some i =>
    obtain ⟨book, hbook, -, htop⟩ := hcur.bound L i hL
    rw [Option.bind_some, hbook]
    exact (htop S hS).symm

theorem believed_filter (ms : List StrategyMsg) :
    believed (ms.filter fun m => m ≠ .stop) S = believed ms S := by
  have heq : (ms.filter fun m => m ≠ .stop).filterMap (StrategyMsg.level? S) =
      ms.filterMap (StrategyMsg.level? S) := by
    rw [List.filterMap_filter]
    refine List.filterMap_congr fun m _ => ?_
    cases m <;> simp [StrategyMsg.level?]
  rw [believed, heq, believed]

theorem believed_pushes {ps : List Push} {q : QueueId} (hps : ∀ p ∈ ps, p.queue = q ↔ p.locate = L) :
    believed ((ps.filter fun p => p.queue = q).map fun p => p.msg) S = lastUpdate ps L S := by
  have heq : ((ps.filter fun p => p.queue = q).map fun p => p.msg).filterMap (StrategyMsg.level? S) =
      ps.filterMap fun p => p.update L S := by
    rw [List.filterMap_map, List.filterMap_filter]
    refine List.filterMap_congr fun p hp => ?_
    have hlocate := hps p hp
    unfold Push.update
    cases hmsg : p.msg <;> simp [StrategyMsg.level?, hlocate, hmsg, ite_and]
  rw [believed, heq, lastUpdate]

/-- Every beginning of the pushes says what all pushes said at some earlier message. -/
theorem reached_before (hrun : run deliver (.init t0 instruments) ds = .ok h) {ps : List Push}
    (hps : ps <+: h.pushed) : ∃ pre post g, ds = pre ++ post ∧
      run deliver (.init t0 instruments) pre = .ok g ∧
      ∀ L S, lastUpdate ps L S = lastUpdate g.pushed L S := by
  induction ds using List.reverseRecOn generalizing h with
  | nil =>
    cases hrun
    rw [List.prefix_nil.mp hps]
    exact ⟨[], [], _, rfl, rfl, fun _ _ => rfl⟩
  | append_singleton ds d ih =>
    obtain ⟨g, hg, hd⟩ := run_concat_ok hrun
    obtain ⟨new, hpushed, hnew⟩ := deliver_pushes (run_current hg) hd
    have hbefore : ∀ {part : List Push}, (∀ p ∈ part, p.msg = .stop) →
        ∃ pre post g', ds ++ [d] = pre ++ post ∧ run deliver (.init t0 instruments) pre = .ok g' ∧
          ∀ L S, lastUpdate (g.pushed ++ part) L S = lastUpdate g'.pushed L S := by
      intro part hstop
      refine ⟨ds, [d], g, rfl, hg, fun L S => lastUpdate_append fun p hp => ?_⟩
      rw [Push.update, hstop p hp]
    rcases List.prefix_or_prefix_of_prefix hps (hpushed ▸ List.prefix_append g.pushed new) with
      hold | ⟨part, rfl⟩
    · obtain ⟨pre, post, g', heq, hrun', hlast⟩ := ih hg hold
      exact ⟨pre, post ++ [d], g', by rw [heq, List.append_assoc], hrun', hlast⟩
    · have hpart : part <+: new := (List.prefix_append_right_inj _).mp (hpushed ▸ hps)
      cases hnew with
      | nothing hlast hquiet heq =>
        rw [heq] at hpart
        rw [List.prefix_nil.mp hpart]
        exact hbefore (by simp)
      | stops hlast hquiet heq =>
        refine hbefore fun p hp => ?_
        have hp := hpart.subset hp
        rw [heq] at hp
        exact (mem_stops.mp hp).2
      | update p hlast hfront hlocate hqueue hmsg heq =>
        cases part with
        | nil => exact hbefore (by simp)
        | cons p' part =>
          have hall : p' :: part = new := hpart.eq_of_length_le (by rw [heq]; simp)
          exact ⟨ds ++ [d], [], h, (List.append_nil _).symm, hrun, fun L S => by rw [hall, hpushed]⟩

theorem System.Inv.believes {cfg : Config} {data : QueueId → ℕ → Words} {s : System} {c : ℕ} {th : Thread}
    (hinv : s.Inv cfg t0 data) (hfew : s.handler.pushed.length < 2 ^ 63) (hth : s.threads[c]? = some th)
    (hqueue : s.handler.locateToQueue L = some th.queue)
    (honly : ∀ L', s.handler.locateToQueue L' = some th.queue → L' = L) :
    ∃ pre post g, s.handled = pre ++ post ∧ run deliver (.init t0 cfg.instruments) pre = .ok g ∧
      (∀ S, S = Side.Bid ∨ S = Side.Ask → believed th.updates S = lastUpdate g.pushed L S) ∧
      (th.updates = (s.handler.pushedTo th.queue).filter (fun m => m ≠ .stop) → post = []) := by
  have hrouted := run_routed hinv.handler
  have hown : ∀ p ∈ s.handler.pushed, p.queue = th.queue ↔ p.locate = L := by
    intro p hp
    have hroute := hrouted.pushed p hp
    constructor
    · intro hq
      exact honly _ (hq ▸ hroute)
    · intro hL
      rw [hL, hqueue] at hroute
      exact (Option.some.inj hroute).symm
  by_cases hall : th.updates = (s.handler.pushedTo th.queue).filter fun m => m ≠ .stop
  · refine ⟨s.handled, [], s.handler, (List.append_nil _).symm, hinv.handler, fun S hS => ?_, fun _ => rfl⟩
    rw [hall, believed_filter, Handler.pushedTo, believed_pushes hown]
  · have hprefix : th.updates <+: s.handler.pushedTo th.queue := by
      have hheard := hinv.heard_begins hfew hth
      rw [ofWords_heard] at hheard
      exact (List.prefix_append _ _).trans hheard
    obtain ⟨rest, hrest⟩ := hprefix
    obtain ⟨told, later, hpushed, htold, -⟩ := List.map_eq_append_iff.mp hrest.symm
    obtain ⟨ps, others, hps, hfilter, -⟩ := List.filter_eq_append_iff.mp hpushed
    obtain ⟨pre, post, g, heq, hg, hlast⟩ :=
      reached_before hinv.handler ⟨others, hps.symm⟩
    refine ⟨pre, post, g, heq, hg, fun S hS => ?_, fun h => absurd h hall⟩
    rw [← hlast, ← htold, ← hfilter]
    exact believed_pushes fun p hp => hown p (hps ▸ List.mem_append_left _ hp)

/-- **What a strategy believes was so**: the best levels it was last told are those that the book had
after some of the messages handled so far, the same for both sides; and if it has taken all updates
pushed to its queue, after all of them. The queue must not serve a second code. -/
theorem strategy_view {cfg : Config} {data : QueueId → ℕ → Words} {es : List Event}
    {s : System} {c : ℕ} {th : Thread}
    (hrun : run (System.step cfg) (System.init cfg t0 data) es = .ok s)
    (hfew : s.handler.pushed.length < 2 ^ 63) (hth : s.threads[c]? = some th)
    (hqueue : s.handler.locateToQueue L = some th.queue)
    (honly : ∀ L', s.handler.locateToQueue L' = some th.queue → L' = L) :
    ∃ pre post g, s.handled = pre ++ post ∧ run deliver (.init t0 cfg.instruments) pre = .ok g ∧
      (∀ S, S = Side.Bid ∨ S = Side.Ask → believed th.updates S = g.top L S) ∧
      (th.updates = (s.handler.pushedTo th.queue).filter (fun m => m ≠ .stop) → post = []) := by
  obtain ⟨pre, post, g, heq, hg, hview, hall⟩ :=
    (System.run_inv hrun hfew).believes hfew hth hqueue honly
  refine ⟨pre, post, g, heq, hg, fun S hS => ?_, hall⟩
  rw [hview S hS, top_eq_lastUpdate (run_current hg) hS]

end View

theorem strategy_view_sample : ∃ s th,
    run (System.step oneStrategy) (System.init oneStrategy 0 fun _ _ _ => 0) bidEvents = .ok s ∧
    s.threads[0]? = some th ∧ s.handler.top 9 Side.Bid = ⟨5, 10⟩ := by
  obtain ⟨s, th, hrun, hth, hqueue, hupdates, -, hpushed, -, htable, -⟩ := bid_run
  have honly : ∀ L', s.handler.locateToQueue L' = some th.queue → L' = 9 := by
    intro L' hL'
    by_contra hne
    rw [htable, Function.update_of_ne hne] at hL'
    cases hL'
  obtain ⟨pre, post, g, heq, hg, hview, hall⟩ :=
    @strategy_view 0 9 oneStrategy (fun _ _ _ => 0) bidEvents s 0 th hrun
      (by rw [hpushed]; decide) hth (by rw [htable, hqueue, Function.update_self]) honly
  have hpost := hall (by rw [Handler.pushedTo, hpushed, hqueue, hupdates]; rfl)
  rw [hpost, List.append_nil] at heq
  have hsame : g = s.handler :=
    Except.ok.inj (hg.symm.trans (heq ▸ (System.run_inv hrun (by rw [hpushed]; decide)).handler))
  refine ⟨s, th, hrun, hth, ?_⟩
  rw [← hsame, ← hview _ (Or.inl rfl), hupdates]
  rfl

/-! ## The ingestion loop -/

theorem stamp_handled {clock : ℕ → UInt64} {ds : List Delivery}
    (hclock : ∀ i d, ds[i]? = some d → clock i = d.tsc) :
    Message.stamp clock (ds.map Delivery.message) = ds := by
  refine List.ext_getElem? fun i => ?_
  rw [Message.stamp, List.getElem?_mapIdx, List.getElem?_map, Option.map_map]
  cases hd : ds[i]? with
  | none => rfl
  | some d =>
    show some (Delivery.mk (clock i) d.ty d.msg) = some d
    rw [hclock i d hd]

/-- **The main thread does what the loop does alone**: on packets that carry the bursts it has taken,
with its readings of the clock, the loop ends with the handler that the system has. -/
theorem system_ingests {cfg : Config} {t0 : UInt64} {data : QueueId → ℕ → Words}
    {es : List Event} {s : System}
    (hrun : run (System.step cfg) (System.init cfg t0 data) es = .ok s)
    (hfew : s.handler.pushed.length < 2 ^ 63) (hinbox : s.inbox = [])
    {junk : (ty : MessageType) → ty.Msg} {packets : List Burst} {frames : List (List (List Frame))}
    (hcarried : Carried packets frames)
    (hframes : frames.map (fun ps => Message.ofFrames junk ps.flatten) = s.bursts)
    {readings : ℕ → UInt64} (hreadings : ∀ i d, s.handled[i]? = some d → readings i = d.tsc)
    (hz lastPrint : UInt64) : ∃ v,
      ingestMessages (parseRegion engine junk) Session.shouldStop hz packets
        (.start lastPrint (.start readings (.init t0 cfg.instruments))) = .returned v ∧
      v.handler.handler = s.handler := by
  have hinv := System.run_inv hrun hfew
  have hbursts := hinv.bursts
  rw [hinbox, List.append_nil] at hbursts
  obtain ⟨v, hv, hhandler⟩ := @ingestMessages_taken junk packets frames hcarried hz
    (.start lastPrint (.start readings (.init t0 cfg.instruments))) rfl
  refine ⟨v, hv, ?_⟩
  rw [hhandler, hframes, hinv.taken, ← hbursts]
  have hafter := Session.after_start readings (.init t0 cfg.instruments)
    (s.handled.map Delivery.message)
  have hstamp := stamp_handled hreadings
  cases hafter with
  | going hclock hreads hfault hdone =>
    rw [hstamp, hinv.handler] at hdone
    exact (Except.ok.inj hdone).symm
  | failed pre post d h fault hfault heq hpre hfail hafter =>
    rw [hstamp] at heq
    have herror : run deliver _ (pre ++ d :: post) = .error fault := run_error_of hpre hfail
    rw [← heq, hinv.handler] at herror
    cases herror

theorem system_ingests_sample : ∃ s v,
    run (System.step oneStrategy) (System.init oneStrategy 0 fun _ _ _ => 0) bidEvents = .ok s ∧
    ingestMessages (parseRegion engine fun _ => default) Session.shouldStop 0
      [⟨[packet [directoryFrame, bidFrame 1 10]], 0, by decide⟩]
      (.start 0 (.start (fun i => (s.handled[i]?.map fun d => d.tsc).getD 0) (.init 0 [nvda]))) =
        .returned v ∧
    v.handler.handler.pushed = [⟨9, 0, .bookUpdate 5 5 10 Side.Bid⟩] := by
  obtain ⟨s, th, hrun, -, -, -, -, hpushed, hinbox, -, hbursts⟩ := bid_run
  have hcarries : Carries (packet [directoryFrame, bidFrame 1 10]) [directoryFrame, bidFrame 1 10] :=
    sample_carries (by simp) (by decide) (by decide)
  have hcarried : Carried [⟨[packet [directoryFrame, bidFrame 1 10]], 0, by decide⟩]
      [[[directoryFrame, bidFrame 1 10]]] := .cons (.cons hcarries .nil) .nil
  obtain ⟨v, hv, hhandler⟩ := @system_ingests oneStrategy 0 (fun _ _ _ => 0) bidEvents s hrun
    (by rw [hpushed]; decide) hinbox (fun _ => default) _ _ hcarried (by rw [hbursts]; rfl)
    (fun i => (s.handled[i]?.map fun d => d.tsc).getD 0) (fun i d hd => by rw [hd]; rfl) 0 0
  exact ⟨s, v, hrun, hv, by rw [hhandler, hpushed]⟩

end ItchIngestion.Engine
