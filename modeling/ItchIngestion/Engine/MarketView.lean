import ItchIngestion.Engine.Market
import ItchIngestion.Engine.Shutdown

/-! # What the strategies know of the market

On a feed that keeps its promises the whole program can stop for two reasons only, a strategy that is
more than a whole queue behind and a file that cannot be opened at the end (`only_overruns_or_files`); and
in every order of its events what a strategy believes are the best levels of the market as it was after
some of the messages, after all of them once it has taken its updates (`strategies_follow_market`).
-/
namespace ItchIngestion.Engine
open Library ITCH OB Telemetry
set_option autoImplicit false

/-! ## Faults -/

/-- The two ways in which a `pop` gives up. -/
def Overrun (fault : Fault) : Prop :=
  fault = .unexpected "Consumer was overun before trying to pop." ∨
    fault = .unexpected "Consumer was overun while popping."

theorem track_overrun {sh sh' : Broadcast} {a : QueueAction} {message : String}
    (htrack : SPMC.track ring sh a = .ok sh') (habort : sh'.1.aborted = some message) :
    Overrun (.unexpected message) := by
  obtain ⟨s, h⟩ := sh
  obtain ⟨s', h'⟩ := sh'
  obtain ⟨hstep, -⟩ := SPMC.track_ok htrack
  obtain ⟨hnone, hsteps⟩ := SPMC.step_ok ring hstep
  dsimp only at habort
  cases hsteps with
  | loadFirst hc =>
    unfold SPMC.checkFirst at habort
    dsimp only at habort
    split at habort
    · cases habort
      exact .inl rfl
    · split at habort <;> exact absurd (hnone.symm.trans habort) (by simp)
  | loadSecond hc =>
    unfold SPMC.checkSecond at habort
    dsimp only at habort
    split at habort
    · cases habort
      exact .inr rfl
    · exact absurd (hnone.symm.trans habort) (by simp)
  | _ => exact absurd (hnone.symm.trans habort) (by simp)

theorem Thread.take_returns {freq now : UInt64} (hfreq : freq ≠ 0) (msg : Words) (th : Thread) :
    ∃ th', th.take freq now msg = .ok th' := by
  unfold Thread.take
  split
  · exact ⟨_, rfl⟩
  · simp only [cyclesToNs, scaleDiv_eq hfreq]
    exact ⟨_, rfl⟩

/-! ## The handler among the others -/

section Handler
variable {instruments : List InstrumentConfig} (hqueues : ∀ cfg ∈ instruments, cfg.queue ≠ none)
include hqueues

theorem mirrors_of_run {t0 : UInt64} {ds : List Delivery} {h : Handler}
    (hfeed : Market.ValidFeed instruments .closed (ds.map Delivery.message))
    (hrun : run deliver (.init t0 instruments) ds = .ok h) :
    Mirrors instruments h (.after instruments (ds.map Delivery.message)) := by
  obtain ⟨g, hg, hm⟩ := run_mirrors hqueues hfeed (fun i => (ds[i]?.map fun d => d.tsc).getD 0) t0
  rw [stamp_handled fun i d hd => by rw [hd]; rfl, hrun] at hg
  cases hg
  exact hm

variable {cfg : Config} {t0 : UInt64} {data : QueueId → ℕ → Words} {s s' : System}

omit hqueues in
theorem System.step_bursts {e : Event} (hstep : System.step cfg s e = .ok s') :
    s.bursts.flatten <+: s'.bursts.flatten := by
  cases (System.step_ok hstep).2 with
  | burst =>
    rw [List.flatten_append]
    exact List.prefix_append _ _
  | consume hth hloop ha htrack =>
    rcases s.consumed_cases _ _ _ with ⟨e, -, heq⟩ | ⟨v, -, -, heq⟩ | ⟨-, -, heq⟩ <;> rw [heq]
  | _ => exact List.prefix_rfl

end Handler

theorem System.Inv.message_returns {cfg : Config} {t0 : UInt64} {data : QueueId → ℕ → Words} {s : System}
    (hinv : s.Inv cfg t0 data) (hqueues : ∀ c ∈ cfg.instruments, c.queue ≠ none)
    (hfeed : Market.ValidFeed cfg.instruments .closed s.bursts.flatten) {m : Message} {ms : List Message}
    (hinbox : s.inbox = m :: ms) (tsc : UInt64) : ∃ h, deliver s.handler ⟨tsc, m.1, m.2⟩ = .ok h := by
  rw [← hinv.bursts, hinbox] at hfeed
  obtain ⟨hhandled, hsound, -⟩ := Market.validFeed_append.mp hfeed
  obtain ⟨h, hdeliver, -⟩ := (mirrors_of_run hqueues hhandled hinv.handler).deliver hqueues hsound tsc
  exact ⟨h, hdeliver⟩

/-- A thread whose `pop` was overrun has more than `bufferSize` updates still to take. -/
theorem System.Inv.overran {cfg : Config} {t0 : UInt64} {data : QueueId → ℕ → Words} {s : System}
    (hinv : s.Inv cfg t0 data) (hfew : s.handler.pushed.length < 2 ^ 63) {c : ℕ} {th : Thread}
    (hth : s.threads[c]? = some th) (hloop : th.loop = .polling) {a : QueueAction} {sh : Broadcast}
    (ha : a.advances (.consumer c) = true) (htrack : SPMC.track ring (s.queues th.queue) a = .ok sh)
    (habort : sh.1.aborted ≠ none) :
    th.updates.length + ring.bufferSize < (s.handler.pushedTo th.queue).length := by
  have hqueue := hinv.queue_inv hfew th.queue
  have hfewer := lt_of_le_of_lt (hinv.length_le th.queue) hfew
  have hfinished := hqueue.finished_le.trans hqueue.begun_le_pushed
  obtain ⟨k, hk, hlag⟩ := SPMC.track_overran hqueue (fun r hr =>
    SPMC.expected_fits hfewer (fun hone => absurd hone (by decide)) (hr.trans hfinished)) htrack ha habort
  have hatt := hinv.attended c th hth
  have hreader := (hqueue.consumer c k hk).reader
  rw [hatt.start, hatt.received, Thread.heard, hloop, Loop.pending, List.append_nil, List.length_map,
    Nat.zero_add] at hreader
  have hpushed : (s.queues th.queue).2.pushed.length ≤ (s.handler.pushedTo th.queue).length := by
    obtain ⟨sent, heq, hqueues⟩ := hinv.sent
    rw [hqueues, Handler.pushedTo, heq, List.filter_append, List.map_append, List.length_append,
      List.length_map]
    exact Nat.le_add_right _ _
  rw [Thread.updates, List.length_map]
  have hbegun := hqueue.begun_le_pushed
  omega

/-- **What stops the program**, as long as the feed keeps its promises: an overrun, or behind the loop of a
thread a file that cannot be opened. Not a message, not a conversion of a latency, not a missing book or
queue, and not a strategy that is never more than `bufferSize` updates behind. -/
theorem only_overruns_or_files {cfg : Config} {t0 : UInt64} {data : QueueId → ℕ → Words}
    {es : List Event} {s : System} (hrun : run (System.step cfg) (System.init cfg t0 data) es = .ok s)
    (hfew : s.handler.pushed.length < 2 ^ 63) (hfreq : cfg.freq ≠ 0)
    (hqueues : ∀ c ∈ cfg.instruments, c.queue ≠ none)
    (hfeed : Market.ValidFeed cfg.instruments .closed s.bursts.flatten) :
    s.fault = none ∨
      (∃ (fault : Fault) (c : ℕ) (th : Thread), s.fault = some fault ∧ Overrun fault ∧
        s.threads[c]? = some th ∧
        th.updates.length + ring.bufferSize < (s.handler.pushedTo th.queue).length) ∨
      ∃ (c : ℕ) (th : Thread), s.fault = some .abort ∧ s.threads[c]? = some th ∧ th.loop = .stopped ∧
        th.file = none := by
  cases es using List.reverseRecOn with
  | nil =>
    cases hrun
    exact .inl rfl
  | append_singleton es e =>
    obtain ⟨t, ht, hstep⟩ := run_concat_ok hrun
    have hfewer := lt_of_le_of_lt (System.step_pushed hstep) hfew
    have hinv := System.run_inv ht hfewer
    obtain ⟨rest, hrest⟩ := System.step_bursts hstep
    rw [← hrest] at hfeed
    obtain ⟨hbefore, -⟩ := Market.validFeed_append.mp hfeed
    obtain ⟨hnone, hstepped⟩ := System.step_ok hstep
    cases hstepped with
    | messageFails hinbox hdeliver =>
      obtain ⟨h, hreturns⟩ := hinv.message_returns hqueues hbefore hinbox _
      rw [hdeliver] at hreturns
      cases hreturns
    | takeFails hth hloop htake =>
      obtain ⟨th', hreturns⟩ := Thread.take_returns hfreq _ _
      rw [htake] at hreturns
      cases hreturns
    | @consume c a th sh hth hloop ha htrack =>
      rcases t.consumed_cases c th sh with ⟨e', habort, heq⟩ | ⟨v, -, -, heq⟩ | ⟨-, -, heq⟩
      · have hlag := hinv.overran hfewer hth hloop ha htrack (by rw [habort]; simp)
        rw [heq]
        exact .inr (.inl ⟨_, c, th, rfl, track_overrun htrack habort, hth, hlag⟩)
      · rw [heq]
        exact .inl hnone
      · rw [heq]
        exact .inl hnone
    | @exportFails c th opened fault hth hloop hfile hexport =>
      refine .inr (.inr ⟨c, th, ?_, hth, hloop, hfile⟩)
      unfold Thread.exportHistogram at hexport
      split at hexport <;> cases hexport
      rfl
    | _ => exact .inl hnone

theorem endMessages_valid : Market.ValidFeed [nvda] .closed ended.bursts.flatten := by
  have hflat : ended.bursts.flatten =
      [⟨.stockDirectory, nvdaDirectory⟩, ⟨.systemEvent, ⟨0, 0, 0, 67⟩⟩] := rfl
  rw [hflat]
  exact ⟨fun _ _ hop _ => (by cases hop), fun _ _ hop _ => (by cases hop), trivial⟩

/-- The strategy gets its `Stop`, and then cannot open its file. -/
theorem only_overruns_or_files_sample : ∃ s th,
    run (System.step oneStrategy) (System.init oneStrategy 0 fun _ _ _ => 0)
      (arrivalEvents endFrame ++ [.message 5] ++ (pushEvents ++ popEvents ++ [.exportHistogram 0 false])) =
        .ok s ∧
    s.fault = some .abort ∧ s.threads[0]? = some th ∧ th.loop = .stopped ∧ th.file = none := by
  obtain ⟨t, u, s, hpush, hpop, hexport, hfault, hpushed, hbursts, hthreads⟩ : ∃ t u s,
      run (System.step oneStrategy) ended pushEvents = .ok t ∧
      run (System.step oneStrategy) t popEvents = .ok u ∧
      System.step oneStrategy u (.exportHistogram 0 false) = .ok s ∧ s.fault = some .abort ∧
      s.handler.pushed.length = 1 ∧ s.bursts = ended.bursts ∧ s.threads.length = 1 :=
    ⟨_, _, _, rfl, rfl, rfl, rfl, rfl, rfl, rfl⟩
  have hrun := (run_append_of_ok run_ended _).trans
    ((run_concat (run_append_ok.mpr ⟨t, hpush, hpop⟩) _).trans hexport)
  rcases only_overruns_or_files hrun (by rw [hpushed]; decide) (by decide) (by decide)
      (by rw [hbursts]; exact endMessages_valid) with
    hnone | ⟨fault, c, th, hoverrun, hmessage, -⟩ | ⟨c, th, -, hth, hloop, hfile⟩
  · rw [hfault] at hnone
    cases hnone
  · rw [hfault] at hoverrun
    cases hoverrun
    rcases hmessage with hmessage | hmessage <;> cases hmessage
  · obtain ⟨hc, -⟩ := List.getElem?_eq_some_iff.mp hth
    obtain rfl : c = 0 := by omega
    exact ⟨s, th, hrun, hfault, hth, hloop, hfile⟩

/-! ## One code for a queue -/

/-- Among the codes of configured symbols, the queue `q` is the one of `L` and of no other. -/
def OwnCode (instruments : List InstrumentConfig) (q : QueueId) (L : UInt16) (ms : List Message) : Prop :=
  ∀ m ∈ ms, ∀ stock inst, m.stock? = some stock → configFor instruments stock = some inst →
    (inst.queue = some q ↔ m.stockLocate = L)

section OwnCode
variable {instruments : List InstrumentConfig} {q : QueueId} {L : UInt16} {ds : List Delivery}

theorem directory_message {d : Delivery} {msg : StockDirectory} (h : d.directory? = some msg) :
    d.message.stock? = some msg.stock.toList ∧ d.message.stockLocate = msg.stockLocate := by
  obtain ⟨tsc, ty, m⟩ := d
  cases ty
  case stockDirectory =>
    cases h
    exact ⟨rfl, rfl⟩
  all_goals cases h

theorem OwnCode.queue_iff (hown : OwnCode instruments q L (ds.map Delivery.message)) {L' : UInt16}
    {inst : InstrumentConfig} (hfirst : firstConfig instruments L' ds = some inst) :
    inst.queue = some q ↔ L' = L := by
  obtain ⟨d, hd, hconfig⟩ := List.exists_of_findSome?_eq_some hfirst
  obtain ⟨msg, hmsg, hat⟩ := Option.bind_eq_some_iff.mp hconfig
  split at hat
  · rename_i hlocate
    obtain ⟨hstock, hcode⟩ := directory_message hmsg
    rw [hown _ (List.mem_map_of_mem hd) _ _ hstock hat, hcode, hlocate]
  · cases hat

/-- Either the code is bound to the queue, and no other one is, or it is bound to nothing yet, and nothing
has been pushed to the queue. -/
theorem OwnCode.bound_or_silent (hown : OwnCode instruments q L (ds.map Delivery.message)) {h : Handler}
    (hrouted : Routed instruments ds h) :
    (h.locateToQueue L = some q ∧ ∀ L', h.locateToQueue L' = some q → L' = L) ∨
      (h.locateToBook L = none ∧ h.pushedTo q = []) := by
  have honly : ∀ L', h.locateToQueue L' = some q → L' = L := by
    intro L' hL'
    rw [hrouted.queue] at hL'
    obtain ⟨inst, hfirst, hqueue⟩ := Option.bind_eq_some_iff.mp hL'
    exact (hown.queue_iff hfirst).mp hqueue
  cases hfirst : firstConfig instruments L ds with
  | some inst =>
    refine .inl ⟨?_, honly⟩
    rw [hrouted.queue, hfirst]
    exact (hown.queue_iff hfirst).mpr rfl
  | none =>
    refine .inr ⟨(hrouted.book L).mpr hfirst, ?_⟩
    rw [Handler.pushedTo, List.map_eq_nil_iff, List.filter_eq_nil_iff]
    intro p hp hq
    have hlocate := hrouted.pushed p hp
    rw [of_decide_eq_true hq] at hlocate
    rw [honly _ hlocate, hrouted.queue, hfirst] at hlocate
    cases hlocate

end OwnCode

/-! ## What a strategy believes of the market -/

section Follow
variable {cfg : Config} {t0 : UInt64} {data : QueueId → ℕ → Words} {s : System} {c : ℕ} {th : Thread}
  {L : UInt16}

theorem System.Inv.follows_bound (hinv : s.Inv cfg t0 data) (hfew : s.handler.pushed.length < 2 ^ 63)
    (hqueues : ∀ c ∈ cfg.instruments, c.queue ≠ none)
    (hfeed : Market.ValidFeed cfg.instruments .closed s.bursts.flatten) (hth : s.threads[c]? = some th)
    (hqueue : s.handler.locateToQueue L = some th.queue)
    (honly : ∀ L', s.handler.locateToQueue L' = some th.queue → L' = L) :
    ∃ pre post, s.bursts.flatten = pre ++ post ∧
      (∀ S, S = Side.Bid ∨ S = Side.Ask →
        (Market.after cfg.instruments pre).Shows L S (believed th.updates S)) ∧
      (s.inbox = [] → th.updates = (s.handler.pushedTo th.queue).filter (fun m => m ≠ .stop) →
        post = []) := by
  obtain ⟨pre, post, g, heq, hg, hview, hall⟩ := hinv.believes hfew hth hqueue honly
  have hbursts : s.bursts.flatten =
      pre.map Delivery.message ++ (post.map Delivery.message ++ s.inbox) := by
    rw [← hinv.bursts, heq, List.map_append, List.append_assoc]
  rw [hbursts] at hfeed
  obtain ⟨hpre, -⟩ := Market.validFeed_append.mp hfeed
  have hm := mirrors_of_run hqueues hpre hg
  refine ⟨_, _, hbursts, fun S hS => ?_, fun hinbox htaken => ?_⟩
  · rw [hview S hS]
    exact hm.shows L hS
  · rw [hinbox, hall htaken]
    rfl

theorem System.Inv.follows (hinv : s.Inv cfg t0 data) (hfew : s.handler.pushed.length < 2 ^ 63)
    (hqueues : ∀ c ∈ cfg.instruments, c.queue ≠ none)
    (hfeed : Market.ValidFeed cfg.instruments .closed s.bursts.flatten) (hth : s.threads[c]? = some th)
    (hown : OwnCode cfg.instruments th.queue L s.bursts.flatten) :
    ∃ pre post, s.bursts.flatten = pre ++ post ∧
      (∀ S, S = Side.Bid ∨ S = Side.Ask →
        (Market.after cfg.instruments pre).Shows L S (believed th.updates S)) ∧
      (s.inbox = [] → th.updates = (s.handler.pushedTo th.queue).filter (fun m => m ≠ .stop) →
        post = []) := by
  have hhandled : OwnCode cfg.instruments th.queue L (s.handled.map Delivery.message) := by
    intro m hm
    refine hown m ?_
    rw [← hinv.bursts]
    exact List.mem_append_left _ hm
  rcases hhandled.bound_or_silent (run_routed hinv.handler) with ⟨hqueue, honly⟩ | ⟨hfree, hsilent⟩
  · exact hinv.follows_bound hfew hqueues hfeed hth hqueue honly
  · rw [← hinv.bursts] at hfeed ⊢
    obtain ⟨hbefore, -⟩ := Market.validFeed_append.mp hfeed
    have hm := mirrors_of_run hqueues hbefore hinv.handler
    have hnothing : th.updates = [] := by
      have hbegins := hinv.heard_begins hfew hth
      rw [hsilent, ofWords_heard] at hbegins
      exact (List.append_eq_nil_iff.mp (List.prefix_nil.mp hbegins)).1
    refine ⟨_, _, rfl, fun S hS => ?_, fun hinbox _ => hinbox⟩
    rw [Market.Shows, hm.closed L hfree, hnothing]
    rfl

end Follow

theorem bidMessages_own : OwnCode [nvda] 0 9 bidMessages := by
  intro m hm stock inst hstock hinst
  rcases List.mem_cons.mp hm with rfl | hm
  · cases hstock
    cases hinst
    decide
  · rw [List.mem_singleton.mp hm] at hstock
    cases hstock

/-- **Strategies follow the market.** What a strategy believes of an instrument that has a queue of its own
are the best levels of the live orders as they were after some of the messages, none as long as it was
not listed; after all of them, if the burst is handled and the updates are taken. -/
theorem strategies_follow_market {cfg : Config} {t0 : UInt64} {data : QueueId → ℕ → Words}
    {es : List Event} {s : System} {c : ℕ} {th : Thread} {L : UInt16}
    (hrun : run (System.step cfg) (System.init cfg t0 data) es = .ok s)
    (hfew : s.handler.pushed.length < 2 ^ 63) (hqueues : ∀ c ∈ cfg.instruments, c.queue ≠ none)
    (hfeed : Market.ValidFeed cfg.instruments .closed s.bursts.flatten) (hth : s.threads[c]? = some th)
    (hown : OwnCode cfg.instruments th.queue L s.bursts.flatten) :
    ∃ pre post, s.bursts.flatten = pre ++ post ∧
      (∀ S, S = Side.Bid ∨ S = Side.Ask →
        (Market.after cfg.instruments pre).Shows L S (believed th.updates S)) ∧
      (s.inbox = [] → th.updates = (s.handler.pushedTo th.queue).filter (fun m => m ≠ .stop) →
        post = []) :=
  (System.run_inv hrun hfew).follows hfew hqueues hfeed hth hown

theorem strategies_follow_market_sample : ∃ s th,
    run (System.step oneStrategy) (System.init oneStrategy 0 fun _ _ _ => 0) bidEvents = .ok s ∧
    s.threads[0]? = some th ∧
    OrderBook.BestOf (Orders.emplace ∅ 1 ⟨5, 10, Side.Bid⟩) Side.Bid (believed th.updates Side.Bid) := by
  obtain ⟨s, th, hrun, hth, hqueue, hupdates, -, hpushed, hinbox, -, hbursts⟩ := bid_run
  have hflat : s.bursts.flatten = bidMessages := by
    rw [hbursts]
    rfl
  obtain ⟨pre, post, hsplit, hbest, hall⟩ := strategies_follow_market hrun (by rw [hpushed]; decide)
    (by decide) (by rw [hflat]; exact bidMessages_valid) hth (by rw [hflat, hqueue]; exact bidMessages_own)
  have hpost := hall hinbox (by rw [Handler.pushedTo, hpushed, hqueue, hupdates]; rfl)
  rw [hpost, List.append_nil, hflat] at hsplit
  have hshows := hbest Side.Bid (Or.inl rfl)
  rw [← hsplit] at hshows
  exact ⟨s, th, hrun, hth, hshows⟩

end ItchIngestion.Engine
