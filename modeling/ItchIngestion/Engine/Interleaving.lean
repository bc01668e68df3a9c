import ItchIngestion.Engine.Routing
import ItchIngestion.Engine.System

/-! # The threads in any order

`Inv` ties the main thread, the queues and the strategies of a run together. A queue has got the
pushes of the handler to it, in order, except those still to be made. A thread has taken the pushes of
its queue from the first one on, since all consumers are there before the first packet. The time of an
update is the reading of its message.

A step of a queue touches one party (`Attended.other`), so a thread is affected by its own events only.
-/
namespace ItchIngestion.Engine
open Library OB Telemetry
set_option autoImplicit false

/-! ## What a message pushes, and when -/

theorem deliver_times {h h' : Handler} {d : Delivery} (hrun : deliver h d = .ok h') :
    ∃ ps, h'.pushed = h.pushed ++ ps ∧ ∀ p ∈ ps, p.msg = .stop ∨ p.msg.words .t0 = d.tsc := by
  cases deliver_cases hrun with
  | quiet recordPrices hlast hdirectory heq =>
    exact ⟨[], by rw [heq, List.append_nil], by simp⟩
  | last hlast hdirectory heq =>
    exact ⟨h.stops, by rw [heq], fun p hp => .inl (mem_stops.mp hp).2⟩
  | bound msg cfg hlast hdirectory hlocate hcfg hfree heq =>
    exact ⟨[], by rw [heq, List.append_nil], by simp⟩
  | traded maxOrders op i book book' change ps hlast hdirectory hbound hbook happly hps heq =>
    refine ⟨ps, by rw [heq], fun p hp => .inr ?_⟩
    obtain ⟨q, -, rfl⟩ := hps.of_mem hp
    rfl

/-- Nothing is left of the bursts if the end event can only be in the last one. -/
theorem taken_concat {bursts : List (List Message)}
    (hlive : bursts.flatten.any Message.isLast = false) (ms : List Message) :
    taken (bursts ++ [ms]) = bursts.flatten ++ ms := by
  induction bursts with
  | nil =>
    rw [List.nil_append, taken, taken, ite_self, List.append_nil]
    rfl
  | cons b bursts ih =>
    rw [List.flatten_cons, List.any_append, Bool.or_eq_false_iff] at hlive
    rw [List.cons_append, taken, if_neg (by rw [hlive.1]; decide), ih hlive.2, List.flatten_cons,
      List.append_assoc]

theorem run_shouldStop {t0 : UInt64} {instruments : List InstrumentConfig} {ds : List Delivery}
    {h : Handler} (hrun : run deliver (.init t0 instruments) ds = .ok h) :
    h.shouldStop = (ds.map Delivery.message).any Message.isLast := by
  induction ds using List.reverseRecOn generalizing h with
  | nil =>
    cases hrun
    rfl
  | append_singleton ds d ih =>
    obtain ⟨g, hg, hd⟩ := run_concat_ok hrun
    have hlast := @Message.isLast_iff d.message d.tsc
    rw [List.map_append, List.any_append, ← ih hg, List.map_singleton, List.any_cons, List.any_nil,
      Bool.or_false]
    cases deliver_cases hd with
    | last hl hdirectory heq => rw [heq, hlast.mpr hl, Bool.or_true]; rfl
    | quiet recordPrices hl hdirectory heq =>
      rw [heq, Bool.eq_false_iff.mpr (mt hlast.mp hl), Bool.or_false]
      rfl
    | bound msg cfg hl hdirectory hlocate hcfg hfree heq =>
      rw [heq, Bool.eq_false_iff.mpr (mt hlast.mp hl), Bool.or_false]
      rfl
    | traded maxOrders op i book book' change ps hl hdirectory hbound hbook happly hps heq =>
      rw [heq, Bool.eq_false_iff.mpr (mt hlast.mp hl), Bool.or_false]
      rfl

/-! ## A thread -/

theorem set_self {α : Type} {xs : List α} {i : ℕ} {x : α} (h : xs[i]? = some x) : xs.set i x = xs := by
  obtain ⟨hi, rfl⟩ := List.getElem?_eq_some_iff.mp h
  exact List.set_getElem_self hi

/-- An update, and the time from its message to where it was taken. -/
structure Timely (freq : UInt64) (x : Sample) : Prop where
  update : x.msg .type ≠ 1
  ns : cyclesToNs (x.t1 - x.msg .t0) freq = .ok x.ns

/-- Consumer `c` of the program and its queue. -/
structure Attended (cfg : Config) (sh : Broadcast) (c : ℕ) (th : Thread) : Prop where
  queue : cfg.consumers[c]? = some th.queue
  consumer : ∃ k, sh.1.consumers c = some k ∧ (th.loop = .polling ∨ k.pop = .idle)
  start : sh.2.start c = 0
  received : sh.2.received c = th.heard
  timely : ∀ x ∈ th.samples, Timely cfg.freq x
  counted : th.Counted
  file : ∀ text, th.file = some text → th.loop = .stopped ∧ text = th.report

section Thread
variable {cfg : Config} {sh sh' : Broadcast} {c : ℕ} {th th' : Thread} {a : QueueAction}

theorem Attended.consumer_ne (h : Attended cfg sh c th) : sh.1.consumers c ≠ none := by
  obtain ⟨k, hk, -⟩ := h.consumer
  rw [hk]
  exact Option.some_ne_none k

theorem Attended.other (h : Attended cfg sh c th) (htrack : SPMC.track ring sh a = .ok sh')
    (hstart : a.starts (.consumer c) = false) (hadvance : a.advances (.consumer c) = false) :
    Attended cfg sh' c th := by
  obtain ⟨hconsumer, hreceived⟩ := SPMC.track_other htrack h.consumer_ne hstart hadvance
  have hbegan := SPMC.track_start htrack h.consumer_ne
  exact ⟨h.queue, hconsumer ▸ h.consumer, hbegan.trans h.start, hreceived.trans h.received, h.timely,
    h.counted, h.file⟩

theorem Attended.going (h : Attended cfg sh c th) (hloop : th.loop = .polling)
    (htrack : SPMC.track ring sh a = .ok sh') (hc : sh'.1.consumers c ≠ none)
    (hreceived : sh'.2.received c = sh.2.received c) : Attended cfg sh' c th := by
  have hbegan := SPMC.track_start htrack h.consumer_ne
  obtain ⟨k, hk⟩ := Option.ne_none_iff_exists'.mp hc
  exact ⟨h.queue, ⟨k, hk, .inl hloop⟩, hbegan.trans h.start, hreceived.trans h.received, h.timely,
    h.counted, h.file⟩

theorem Attended.no_file (h : Attended cfg sh c th) (hloop : th.loop ≠ .stopped) : th.file = none := by
  by_contra hne
  obtain ⟨text, htext⟩ := Option.ne_none_iff_exists'.mp hne
  exact hloop (h.file text htext).1

theorem Attended.returned {v : Words} (h : Attended cfg sh c th) (hloop : th.loop = .polling)
    (htrack : SPMC.track ring sh a = .ok sh') (hv : SPMC.returned sh'.1 c = some v)
    (hreceived : sh'.2.received c = sh.2.received c ++ [v]) :
    Attended cfg sh' c { th with loop := .received v } := by
  have hbegan := SPMC.track_start htrack h.consumer_ne
  obtain ⟨k, hk, hidle⟩ := SPMC.returned_idle hv
  have hnone := h.no_file (by rw [hloop]; simp)
  refine ⟨h.queue, ⟨k, hk, .inr hidle⟩, hbegan.trans h.start, ?_, h.timely,
    ⟨h.counted.hist, h.counted.skipped⟩, fun text htext => by cases hnone.symm.trans htext⟩
  rw [hreceived, h.received]
  simp [Thread.heard, hloop, Loop.pending]

/-- What a thread has received is the beginning of what was pushed. -/
theorem Attended.heard_begins (h : Attended cfg sh c th) (hinv : SPMC.Inv ring sh.1 sh.2) :
    th.heard <+: sh.2.pushed := by
  obtain ⟨k, hk, -⟩ := h.consumer
  have hreceived := (hinv.consumer c k hk).received
  rwa [h.received, h.start, List.drop_zero] at hreceived

theorem Attended.take {ms : List StrategyMsg} {msg : Words} {now : UInt64} (h : Attended cfg sh c th)
    (hinv : SPMC.Inv ring sh.1 sh.2) (hpushed : sh.2.pushed = ms.map StrategyMsg.words)
    (hfew : sh.2.pushed.length < 2 ^ 63)
    (hloop : th.loop = .received msg) (htake : th.take cfg.freq now msg = .ok th') :
    Attended cfg sh c th' := by
  have hheard : th.heard = th.samples.map (fun x => x.msg) ++ [msg] := by
    rw [Thread.heard, hloop]
    rfl
  have hprefix := h.heard_begins hinv
  obtain ⟨m, hm, hmsg⟩ : ∃ m ∈ ms, m.words = msg := by
    refine List.mem_map.mp ?_
    rw [← hpushed]
    exact hprefix.subset (by rw [hheard]; simp)
  obtain ⟨k, hk, hidle⟩ := h.consumer
  have hidle : k.pop = .idle := hidle.resolve_left (by rw [hloop]; exact fun e => by cases e)
  have hnone := h.no_file (by rw [hloop]; simp)
  unfold Thread.take at htake
  split at htake
  · rename_i htype
    cases htake
    refine ⟨h.queue, ⟨k, hk, .inr hidle⟩, h.start, ?_, h.timely, ⟨h.counted.hist, h.counted.skipped⟩,
      fun text htext => by cases hnone.symm.trans htext⟩
    rw [← hmsg, StrategyMsg.words_type] at htype
    rw [h.received, hheard, ← hmsg, htype]
    rfl
  · rename_i htype
    obtain ⟨ns, hns, htake⟩ := bind_eq_ok.mp htake
    cases htake
    have hlen : th.samples.length < 2 ^ 63 := by
      have hle := hprefix.length_le
      rw [hheard, List.length_append, List.length_map] at hle
      omega
    refine ⟨(th.count_queue ns).symm ▸ h.queue, ⟨k, hk, .inr hidle⟩, h.start, ?_, ?_,
      h.counted.take hlen .polling msg now ns, fun text htext => ?_⟩
    · rw [h.received, hheard]
      simp [Thread.heard, Loop.pending]
    · intro x hx
      rcases List.mem_append.mp hx with hx | hx
      · exact h.timely x hx
      · rw [List.mem_singleton.mp hx]
        exact ⟨htype, hns⟩
    · have hfile : th.file = some text := (th.count_file ns).symm.trans htext
      cases hnone.symm.trans hfile

theorem Attended.exported (h : Attended cfg sh c th) (hloop : th.loop = .stopped) :
    Attended cfg sh c { th with file := some th.report } :=
  ⟨h.queue, h.consumer, h.start, h.received, h.timely, ⟨h.counted.hist, h.counted.skipped⟩,
    fun _ htext => ⟨hloop, (Option.some.inj htext).symm⟩⟩

end Thread

/-! ## The system -/

/-- What holds in every state of the program as long as fewer than `2 ^ 63` pushes were made. -/
structure System.Inv (cfg : Config) (t0 : UInt64) (data : QueueId → ℕ → Words) (s : System) : Prop where
  handler : run deliver (.init t0 cfg.instruments) s.handled = .ok s.handler
  bursts : s.handled.map Delivery.message ++ s.inbox = s.bursts.flatten
  taken : taken s.bursts = s.bursts.flatten
  queue : ∀ q, ∃ as, run (SPMC.track ring) (SPMC.init (data q), .init) as = .ok (s.queues q)
  /-- The pushes made, and those still to be made. -/
  sent : ∃ sent, s.handler.pushed = sent ++ s.todo ∧ ∀ q, (s.queues q).2.pushed =
    ((sent.filter fun p => p.queue = q).map fun p => p.msg).map StrategyMsg.words
  early : s.threads.length < cfg.consumers.length → s.bursts = []
  attended : ∀ c th, s.threads[c]? = some th → Attended cfg (s.queues th.queue) c th

namespace System
variable {cfg : Config} {t0 : UInt64} {data : QueueId → ℕ → Words} {s s' : System}

theorem init_inv : Inv cfg t0 data (init cfg t0 data) where
  handler := rfl
  bursts := rfl
  taken := rfl
  queue _ := ⟨[], rfl⟩
  sent := ⟨[], rfl, fun _ => rfl⟩
  early _ := rfl
  attended c th hth := by cases hth

theorem Inv.length_le (h : Inv cfg t0 data s) (q : QueueId) :
    (s.queues q).2.pushed.length ≤ s.handler.pushed.length := by
  obtain ⟨sent, heq, hqueues⟩ := h.sent
  rw [hqueues q, heq, List.length_map, List.length_map, List.length_append]
  exact (List.length_filter_le _ _).trans (Nat.le_add_right _ _)

theorem Inv.queue_inv (h : Inv cfg t0 data s) (hfew : s.handler.pushed.length < 2 ^ 63)
    (q : QueueId) : SPMC.Inv ring (s.queues q).1 (s.queues q).2 := by
  obtain ⟨as, hrun⟩ := h.queue q
  exact SPMC.run_inv hrun (lt_of_le_of_lt (h.length_le q) hfew)

/-! ### A step of one queue -/

section Queue
variable {q : QueueId} {a : QueueAction} {sh : Broadcast}

theorem Inv.queue_step (h : Inv cfg t0 data s) (htrack : SPMC.track ring (s.queues q) a = .ok sh)
    (q' : QueueId) : ∃ as, run (SPMC.track ring) (SPMC.init (data q'), .init) as =
      .ok (Function.update s.queues q sh q') := by
  obtain ⟨as, hrun⟩ := h.queue q'
  by_cases hq : q' = q
  · subst hq
    rw [Function.update_self]
    exact ⟨as ++ [a], (run_concat hrun a).trans htrack⟩
  · rw [Function.update_of_ne hq]
    exact ⟨as, hrun⟩

theorem pushed_step (htrack : SPMC.track ring (s.queues q) a = .ok sh) (q' : QueueId) :
    (Function.update s.queues q sh q').2.pushed =
      (s.queues q').2.pushed ++ if q = q' then a.value?.toList else [] := by
  by_cases hq : q = q'
  · subst hq
    rw [Function.update_self, if_pos rfl]
    exact SPMC.track_pushed htrack
  · rw [Function.update_of_ne (Ne.symm hq), if_neg hq, List.append_nil]

theorem pushed_same (htrack : SPMC.track ring (s.queues q) a = .ok sh) (ha : a.value? = none)
    (q' : QueueId) : (Function.update s.queues q sh q').2.pushed = (s.queues q').2.pushed := by
  rw [pushed_step htrack, ha, Option.toList_none, ite_self, List.append_nil]

theorem Inv.attended_step (h : Inv cfg t0 data s) (htrack : SPMC.track ring (s.queues q) a = .ok sh)
    {c : ℕ} {th : Thread} (hth : s.threads[c]? = some th) (hstart : a.starts (.consumer c) = false)
    (hadvance : a.advances (.consumer c) = false) :
    Attended cfg (Function.update s.queues q sh th.queue) c th := by
  have hatt := h.attended c th hth
  by_cases hq : th.queue = q
  · rw [hq] at hatt ⊢
    rw [Function.update_self]
    exact hatt.other htrack hstart hadvance
  · rw [Function.update_of_ne hq]
    exact hatt

end Queue

/-! ### The events -/

theorem Inv.early_pushed (h : Inv cfg t0 data s) (hearly : s.threads.length < cfg.consumers.length)
    (q : QueueId) : (s.queues q).2.pushed = [] := by
  have hbursts := h.bursts
  rw [h.early hearly, List.flatten_nil, List.append_eq_nil_iff] at hbursts
  have hhandler := h.handler
  rw [List.map_eq_nil_iff.mp hbursts.1] at hhandler
  have hinit : Handler.init t0 cfg.instruments = s.handler := Except.ok.inj hhandler
  obtain ⟨sent, heq, hqueues⟩ := h.sent
  rw [← hinit] at heq
  rw [hqueues q, (List.append_eq_nil_iff.mp heq.symm).1]
  rfl

theorem Inv.makeConsumer (h : Inv cfg t0 data s) {q : QueueId} {sh : Broadcast}
    (hfew : s.handler.pushed.length < 2 ^ 63) (hq : cfg.consumers[s.threads.length]? = some q)
    (htrack : SPMC.track ring (s.queues q) (.makeConsumer s.threads.length) = .ok sh) :
    Inv cfg t0 data { s with
      queues := Function.update s.queues q sh, threads := s.threads ++ [.start q] } := by
  have hlt : s.threads.length < cfg.consumers.length := (List.getElem?_eq_some_iff.mp hq).1
  refine ⟨h.handler, h.bursts, h.taken, h.queue_step htrack, ?_, fun _ => h.early hlt, ?_⟩
  · obtain ⟨sent, heq, hqueues⟩ := h.sent
    exact ⟨sent, heq, fun q' => by rw [pushed_same htrack rfl, hqueues]⟩
  · intro c th hth
    by_cases hc : c < s.threads.length
    · rw [List.getElem?_append_left hc] at hth
      exact h.attended_step htrack hth rfl rfl
    · obtain ⟨hlen, hstart⟩ : c = s.threads.length ∧ Thread.start q = th := by
        rw [List.getElem?_append_right (not_lt.mp hc), List.getElem?_singleton] at hth
        split at hth
        · exact ⟨by omega, Option.some.inj hth⟩
        · cases hth
      subst hlen hstart
      have hpushed := h.early_pushed hlt q
      have hinv := h.queue_inv hfew q
      obtain ⟨hnone, hc, hbegan, hreceived⟩ := SPMC.track_makeConsumer htrack
      have hwriter : (s.queues q).1.writer.toNat = 0 := by
        have hle := hinv.writer_le.trans (hinv.finished_le.trans hinv.begun_le_pushed)
        rw [hpushed] at hle
        exact Nat.le_zero.mp hle
      show Attended cfg (Function.update s.queues q sh q) _ _
      rw [Function.update_self]
      refine ⟨hq, ⟨_, hc, .inl rfl⟩, hbegan.trans hwriter, ?_, by simp [Thread.start],
        Thread.start_counted q, fun text htext => by cases htext⟩
      rw [hreceived, hinv.fresh _ hnone]
      rfl

theorem Inv.burst (h : Inv cfg t0 data s) {ms : List Message}
    (hall : s.threads.length = cfg.consumers.length) (hinbox : s.inbox = [])
    (hlive : s.handler.shouldStop = false) :
    Inv cfg t0 data { s with inbox := ms, bursts := s.bursts ++ [ms] } := by
  have hbursts := h.bursts
  rw [hinbox, List.append_nil] at hbursts
  refine ⟨h.handler, ?_, ?_, h.queue, h.sent, fun hlt => absurd hall hlt.ne, h.attended⟩
  · rw [hbursts, List.flatten_append, List.flatten_singleton]
  · rw [run_shouldStop h.handler, hbursts] at hlive
    rw [taken_concat hlive, List.flatten_append, List.flatten_singleton]

theorem Inv.message (h : Inv cfg t0 data s) {m : Message} {ms : List Message} {g : Handler} {tsc : UInt64}
    (hinbox : s.inbox = m :: ms) (htodo : s.todo = [])
    (hdeliver : deliver s.handler ⟨tsc, m.1, m.2⟩ = .ok g) :
    Inv cfg t0 data { s with
      handler := g
      inbox := ms
      todo := g.pushed.drop s.handler.pushed.length
      handled := s.handled ++ [⟨tsc, m.1, m.2⟩] } := by
  obtain ⟨ps, hpushed, -⟩ := deliver_times hdeliver
  refine ⟨(run_concat h.handler _).trans hdeliver, ?_, h.taken, h.queue, ?_, h.early, h.attended⟩
  · have hbursts := h.bursts
    rw [hinbox] at hbursts
    rw [← hbursts, List.map_append, List.append_assoc]
    rfl
  · obtain ⟨sent, heq, hqueues⟩ := h.sent
    rw [htodo, List.append_nil] at heq
    refine ⟨sent, ?_, hqueues⟩
    rw [hpushed, List.drop_left, heq]

theorem Inv.push (h : Inv cfg t0 data s) {p : Push} {todo : List Push} {sh : Broadcast}
    (htodo : s.todo = p :: todo)
    (htrack : SPMC.track ring (s.queues p.queue) (.push p.msg.words) = .ok sh) :
    Inv cfg t0 data { s with
      queues := Function.update s.queues p.queue sh, todo := todo, pushing := some p } := by
  refine ⟨h.handler, h.bursts, h.taken, h.queue_step htrack, ?_, h.early, ?_⟩
  · obtain ⟨sent, heq, hqueues⟩ := h.sent
    refine ⟨sent ++ [p], by rw [heq, htodo, List.append_assoc]; rfl, fun q => ?_⟩
    rw [pushed_step htrack, hqueues, List.filter_append, List.map_append, List.map_append]
    by_cases hq : p.queue = q
    · simp [hq, SPMC.Action.value?]
    · simp [hq]
  · exact fun c th hth => h.attended_step htrack hth rfl rfl

theorem Inv.produce (h : Inv cfg t0 data s) {p : Push} {a : QueueAction} {sh : Broadcast}
    (ha : a.advances .producer = true)
    (htrack : SPMC.track ring (s.queues p.queue) a = .ok sh) :
    Inv cfg t0 data { s with
      queues := Function.update s.queues p.queue sh, pushing := stillPushing p sh } := by
  refine ⟨h.handler, h.bursts, h.taken, h.queue_step htrack, ?_, h.early, ?_⟩
  · obtain ⟨sent, heq, hqueues⟩ := h.sent
    exact ⟨sent, heq, fun q => by rw [pushed_same htrack (SPMC.Action.value?_advances ha), hqueues]⟩
  · intro c th hth
    obtain ⟨hstart, hadvance⟩ := SPMC.Action.advances_only (q := .consumer c) ha (by simp)
    exact h.attended_step htrack hth hstart hadvance

theorem Inv.threads (h : Inv cfg t0 data s) {c : ℕ} {th th' : Thread} {a : QueueAction}
    {sh : Broadcast} (hth : s.threads[c]? = some th)
    (htrack : SPMC.track ring (s.queues th.queue) a = .ok sh) (ha : a.value? = none)
    (hothers : ∀ d, d ≠ c → a.starts (.consumer d) = false ∧ a.advances (.consumer d) = false)
    (hqueue : th'.queue = th.queue) (hown : Attended cfg sh c th') (fault : Option Fault) :
    Inv cfg t0 data { s with
      queues := Function.update s.queues th.queue sh
      threads := s.threads.set c th'
      fault := fault } := by
  refine ⟨h.handler, h.bursts, h.taken, h.queue_step htrack, ?_, ?_, ?_⟩
  · obtain ⟨sent, heq, hqueues⟩ := h.sent
    exact ⟨sent, heq, fun q => by rw [pushed_same htrack ha, hqueues]⟩
  · intro hlt
    rw [List.length_set] at hlt
    exact h.early hlt
  · intro d th₂ hd
    by_cases hdc : d = c
    · subst hdc
      rw [List.getElem?_set_self (List.getElem?_eq_some_iff.mp hth).1] at hd
      obtain rfl : th' = th₂ := Option.some.inj hd
      show Attended cfg (Function.update s.queues th.queue sh th'.queue) d th'
      rw [hqueue, Function.update_self]
      exact hown
    · rw [List.getElem?_set_ne (Ne.symm hdc)] at hd
      obtain ⟨hstart, hadvance⟩ := hothers d hdc
      exact h.attended_step htrack hd hstart hadvance

theorem Inv.poll (h : Inv cfg t0 data s) {c : ℕ} {dst : Words} {th : Thread} {sh : Broadcast}
    (hth : s.threads[c]? = some th) (hloop : th.loop = .polling)
    (htrack : SPMC.track ring (s.queues th.queue) (.pop c dst) = .ok sh) :
    Inv cfg t0 data { s with queues := Function.update s.queues th.queue sh } := by
  obtain ⟨-, ⟨k, hk, -⟩, hreceived⟩ := SPMC.track_pop htrack
  have hown := (h.attended c th hth).going hloop htrack (by rw [hk]; simp) hreceived
  have hinv := h.threads hth htrack rfl (fun d hd => ⟨decide_eq_false (Ne.symm hd), rfl⟩) rfl hown s.fault
  rwa [set_self hth] at hinv

theorem Inv.consume (h : Inv cfg t0 data s) {c : ℕ} {a : QueueAction} {th : Thread} {sh : Broadcast}
    (hth : s.threads[c]? = some th) (hloop : th.loop = .polling)
    (ha : a.advances (.consumer c) = true)
    (htrack : SPMC.track ring (s.queues th.queue) a = .ok sh) :
    Inv cfg t0 data (s.consumed c th sh) := by
  have hatt := h.attended c th hth
  have hstep := fun th' => @Inv.threads cfg t0 data s h c th th' a sh hth htrack
    (SPMC.Action.value?_advances ha)
    (fun d hd => SPMC.Action.advances_only ha (by rintro ⟨⟩; exact hd rfl))
  rcases s.consumed_cases c th sh with ⟨e, hab, heq⟩ | ⟨v, hab, hv, heq⟩ | ⟨hab, hv, heq⟩
  · rw [heq]
    cases SPMC.track_advances htrack ha with
    | aborted e' hab' hc hreceived =>
      have hinv := hstep th rfl (hatt.going hloop htrack hc hreceived) (some (.unexpected e))
      rwa [set_self hth] at hinv
    | going hab' => rw [hab] at hab'; cases hab'
    | returned v hab' => rw [hab] at hab'; cases hab'
  · rw [heq]
    cases SPMC.track_advances htrack ha with
    | aborted e' hab' => rw [hab] at hab'; cases hab'
    | going hab' hc hreturned => rw [hv] at hreturned; cases hreturned
    | returned v' hab' hc hreturned hreceived =>
      obtain rfl : v = v' := Option.some.inj (hv.symm.trans hreturned)
      exact hstep { th with loop := .received v } rfl (hatt.returned hloop htrack hv hreceived) s.fault
  · rw [heq]
    cases SPMC.track_advances htrack ha with
    | aborted e' hab' => rw [hab] at hab'; cases hab'
    | going hab' hc hreturned hreceived =>
      have hinv := hstep th rfl (hatt.going hloop htrack hc hreceived) s.fault
      rwa [set_self hth] at hinv
    | returned v' hab' hc hreturned => rw [hv] at hreturned; cases hreturned

theorem Inv.own (h : Inv cfg t0 data s) {c : ℕ} {th th' : Thread} (hth : s.threads[c]? = some th)
    (hqueue : th'.queue = th.queue) (hown : Attended cfg (s.queues th.queue) c th') :
    Inv cfg t0 data { s with threads := s.threads.set c th' } := by
  refine ⟨h.handler, h.bursts, h.taken, h.queue, h.sent, ?_, ?_⟩
  · intro hlt
    rw [List.length_set] at hlt
    exact h.early hlt
  · intro d th₂ hd
    by_cases hdc : d = c
    · subst hdc
      rw [List.getElem?_set_self (List.getElem?_eq_some_iff.mp hth).1] at hd
      obtain rfl : th' = th₂ := Option.some.inj hd
      rw [hqueue]
      exact hown
    · rw [List.getElem?_set_ne (Ne.symm hdc)] at hd
      exact h.attended d th₂ hd

theorem Inv.take (h : Inv cfg t0 data s) (hfew : s.handler.pushed.length < 2 ^ 63) {c : ℕ}
    {th th' : Thread} {msg : Words} {now : UInt64} (hth : s.threads[c]? = some th)
    (hloop : th.loop = .received msg) (htake : th.take cfg.freq now msg = .ok th') :
    Inv cfg t0 data { s with threads := s.threads.set c th' } := by
  obtain ⟨sent, -, hqueues⟩ := h.sent
  exact h.own hth (th.take_queue htake) ((h.attended c th hth).take (h.queue_inv hfew _) (hqueues _)
    (lt_of_le_of_lt (h.length_le _) hfew) hloop htake)

theorem Inv.failed (h : Inv cfg t0 data s) (fault : Fault) :
    Inv cfg t0 data { s with fault := some fault } :=
  ⟨h.handler, h.bursts, h.taken, h.queue, h.sent, h.early, h.attended⟩

/-- **Every event keeps the system together.** -/
theorem Inv.step {e : Event} (h : Inv cfg t0 data s) (hfew : s.handler.pushed.length < 2 ^ 63)
    (hstep : step cfg s e = .ok s') : Inv cfg t0 data s' := by
  cases (step_ok hstep).2 with
  | makeConsumer hq htrack => exact h.makeConsumer hfew hq htrack
  | burst hall hinbox htodo hpushing hlive => exact h.burst hall hinbox hlive
  | message hinbox htodo hpushing hdeliver => exact h.message hinbox htodo hdeliver
  | push htodo hpushing htrack => exact h.push htodo htrack
  | produce hpushing ha htrack => exact h.produce ha htrack
  | poll hth hloop htrack => exact h.poll hth hloop htrack
  | consume hth hloop ha htrack => exact h.consume hth hloop ha htrack
  | take hth hloop htake => exact h.take hfew hth hloop htake
  | exported hth hloop hfile hexport =>
    rw [Thread.exportHistogram_ok hexport]
    exact h.own hth rfl ((h.attended _ _ hth).exported hloop)
  | messageFails | takeFails | exportFails => exact h.failed _

theorem step_pushed {e : Event} (hstep : System.step cfg s e = .ok s') :
    s.handler.pushed.length ≤ s'.handler.pushed.length := by
  cases (step_ok hstep).2 with
  | message hinbox htodo hpushing hdeliver =>
    obtain ⟨ps, hpushed, -⟩ := deliver_times hdeliver
    show _ ≤ (_ : Handler).pushed.length
    rw [hpushed, List.length_append]
    exact Nat.le_add_right _ _
  | consume hth hloop ha htrack =>
    obtain ⟨e, -, heq⟩ | ⟨v, -, -, heq⟩ | ⟨-, -, heq⟩ := consumed_cases _ _ _ _ <;> rw [heq]
  | _ => exact le_refl _

theorem run_inv {es : List Event} (hrun : run (System.step cfg) (init cfg t0 data) es = .ok s)
    (hfew : s.handler.pushed.length < 2 ^ 63) : Inv cfg t0 data s :=
  run_invariant (fun s => s.handler.pushed.length < 2 ^ 63 → Inv cfg t0 data s) (fun _ => init_inv)
    (fun _ _ _ ih hstep hfew => (ih (lt_of_le_of_lt (step_pushed hstep) hfew)).step
      (lt_of_le_of_lt (step_pushed hstep) hfew) hstep) hrun hfew

end System

end ItchIngestion.Engine
