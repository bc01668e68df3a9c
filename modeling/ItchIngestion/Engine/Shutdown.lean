import ItchIngestion.Engine.EndToEnd

/-! # Every strategy ends

Once a `Stop` has been pushed, the threads of its queue leave their loops, whatever the others do: a
thread does not wait for anyone, each message costs it at most nine events of its own, and no message is
behind the `Stop`. The rank of `Library.Ranked` is the number of events that are left to it. The other way
to end is the end of the process.
-/
namespace ItchIngestion.Engine
open Library OB Telemetry
set_option autoImplicit false

/-- The events of a thread in its loop. -/
def Event.isOf (e : Event) (c : ℕ) : Bool :=
  match e with
  | .poll d _ | .consume d _ | .take d _ => d = c
  | _ => false

/-! ## What is left to a thread -/

/-- The events up to the end of the `pop`; one is the call, two more are a load and the `take`. -/
def popCost (p : SPMC.PopState Member UInt64) : ℕ := if p.work = 0 then 9 else p.work + 1

/-- A bound on the events of a thread until it has taken message number `i`. -/
def Thread.eventsLeft (i c : ℕ) (th : Thread) (sh : Broadcast) : ℕ :=
  match th.loop with
  | .polling => (i - th.samples.length) * 9 + (sh.1.consumers c).elim 0 fun k => popCost k.pop
  | .received _ => (i - th.samples.length) * 9 + 1
  | .stopped => 0

/-- The events that consumer `c` has left if push `i` of its queue is a `Stop`. -/
def System.eventsLeft (i c : ℕ) (s : System) : ℕ :=
  match s.fault, s.threads[c]? with
  | none, some th => th.eventsLeft i c (s.queues th.queue)
  | _, _ => 0

theorem popCost_le (p : SPMC.PopState Member UInt64) : popCost p ≤ 9 := by
  have hwork : p.work ≤ 7 := p.work_le
  unfold popCost
  split <;> omega

theorem two_le_popCost (p : SPMC.PopState Member UInt64) : 2 ≤ popCost p := by
  unfold popCost
  split <;> omega

theorem popCost_busy {p : SPMC.PopState Member UInt64} (hp : p ≠ .idle) :
    popCost p = p.work + 1 :=
  if_neg (p.work_pos.mp hp).ne'

theorem Thread.eventsLeft_le (th : Thread) (i c : ℕ) (sh : Broadcast) :
    th.eventsLeft i c sh ≤ 9 * (i + 1) := by
  have hpop : ((sh.1.consumers c).elim 0 fun k => popCost k.pop) ≤ 9 := by
    cases sh.1.consumers c with
    | none => exact Nat.zero_le _
    | some k => exact popCost_le k.pop
  unfold Thread.eventsLeft
  split <;> omega

theorem Attended.eventsLeft_pos {cfg : Config} {sh : Broadcast} {c : ℕ} {th : Thread}
    (h : Attended cfg sh c th) (hloop : th.loop ≠ .stopped) (i : ℕ) : 0 < th.eventsLeft i c sh := by
  obtain ⟨k, hk, -⟩ := h.consumer
  have htwo := two_le_popCost k.pop
  unfold Thread.eventsLeft
  cases hl : th.loop with
  | stopped => exact absurd hl hloop
  | received msg => exact Nat.succ_pos _
  | polling =>
    dsimp only
    rw [hk, Option.elim_some]
    omega

namespace System
variable {cfg : Config} {t0 : UInt64} {data : QueueId → ℕ → Words} {s s' : System} {e : Event}
  {c i : ℕ} {q : QueueId} {th : Thread}

theorem eventsLeft_eq (hfault : s.fault = none) (hth : s.threads[c]? = some th) :
    s.eventsLeft i c = th.eventsLeft i c (s.queues th.queue) := by
  rw [eventsLeft, hfault, hth]

theorem eventsLeft_fault (hfault : s.fault ≠ none) : s.eventsLeft i c = 0 := by
  unfold eventsLeft
  split
  · contradiction
  · rfl

/-! ## Behind the push of a `Stop` -/

/-- Push `i` of the queue of a thread is a `Stop`, and it has finished. -/
structure Ending (cfg : Config) (t0 : UInt64) (data : QueueId → ℕ → Words) (c i : ℕ) (q : QueueId)
    (s : System) : Prop where
  inv : Inv cfg t0 data s
  few : s.handler.pushed.length < 2 ^ 63
  thread : ∃ th, s.threads[c]? = some th ∧ th.queue = q
  stop : (s.queues q).2.pushed[i]? = some StrategyMsg.stop.words
  finished : i < (s.queues q).2.finished

theorem Ending.samples_le (h : Ending cfg t0 data c i q s) (hth : s.threads[c]? = some th)
    (hq : th.queue = q) : th.samples.length ≤ i := by
  subst hq
  have hatt := h.inv.attended c th hth
  have hprefix := hatt.heard_begins (h.inv.queue_inv h.few _)
  by_contra hlt
  obtain ⟨x, hx⟩ : ∃ x, th.samples[i]? = some x := ⟨_, List.getElem?_eq_getElem (not_le.mp hlt)⟩
  obtain ⟨rest, hrest⟩ := hprefix
  have hstop := h.stop
  rw [← hrest, Thread.heard, List.append_assoc,
    List.getElem?_append_left (by rw [List.length_map]; omega), List.getElem?_map, hx] at hstop
  have hupdate := (hatt.timely x (List.mem_of_getElem? hx)).update
  have hmsg : x.msg = StrategyMsg.stop.words := Option.some.inj hstop
  rw [hmsg] at hupdate
  exact hupdate rfl

theorem Ending.ready (h : Ending cfg t0 data c i q s) (hth : s.threads[c]? = some th)
    (hq : th.queue = q) (hloop : th.loop = .polling) {k : SPMC.Consumer Member UInt64}
    (hk : (s.queues q).1.consumers c = some k) : k.reader.toNat < (s.queues q).2.finished := by
  subst hq
  have hatt := h.inv.attended c th hth
  have hle := h.samples_le hth rfl
  have hreader := ((h.inv.queue_inv h.few _).consumer c k hk).reader
  rw [hatt.start, hatt.received, Thread.heard, hloop, Loop.pending, List.append_nil,
    List.length_map] at hreader
  have := h.finished
  omega

theorem step_thread (hstep : step cfg s e = .ok s') (hth : s.threads[c]? = some th) :
    ∃ th', s'.threads[c]? = some th' ∧ th'.queue = th.queue := by
  have hset : ∀ d th₁ th₂, s.threads[d]? = some th₁ → th₂.queue = th₁.queue →
      ∃ th', (s.threads.set d th₂)[c]? = some th' ∧ th'.queue = th.queue := by
    intro d th₁ th₂ hd hqueue
    by_cases hdc : d = c
    · subst hdc
      obtain rfl : th₁ = th := Option.some.inj (hd.symm.trans hth)
      exact ⟨th₂, List.getElem?_set_self (List.getElem?_eq_some_iff.mp hd).1, hqueue⟩
    · exact ⟨th, by rw [List.getElem?_set_ne hdc, hth], rfl⟩
  cases (step_ok hstep).2 with
  | makeConsumer hq htrack =>
    exact ⟨th, by rw [List.getElem?_append_left (List.getElem?_eq_some_iff.mp hth).1, hth], rfl⟩
  | @consume d a th₁ sh hd hloop ha htrack =>
    rcases s.consumed_cases d th₁ sh with ⟨e, -, heq⟩ | ⟨v, -, -, heq⟩ | ⟨-, -, heq⟩
    · exact ⟨th, by rw [heq, hth], rfl⟩
    · rw [heq]
      exact hset d th₁ _ hd rfl
    · exact ⟨th, by rw [heq, hth], rfl⟩
  | take hd hloop htake => exact hset _ _ _ hd (Thread.take_queue _ htake)
  | exported hd hloop hfile hexport =>
    rw [Thread.exportHistogram_ok hexport]
    exact hset _ _ _ hd rfl
  | _ => exact ⟨th, hth, rfl⟩

theorem Ending.step (h : Ending cfg t0 data c i q s) (hstep : step cfg s e = .ok s')
    (hfew : s'.handler.pushed.length < 2 ^ 63) : Ending cfg t0 data c i q s' := by
  obtain ⟨th, hth, hqueue⟩ := h.thread
  obtain ⟨th', hth', hqueue'⟩ := step_thread hstep hth
  refine ⟨h.inv.step h.few hstep, hfew, ⟨th', hth', hqueue'.trans hqueue⟩, ?_, ?_⟩
  · rcases step_queue hstep q with hsame | ⟨a, htrack⟩
    · rw [hsame]
      exact h.stop
    · rw [SPMC.track_pushed htrack, List.getElem?_append_left (List.getElem?_eq_some_iff.mp h.stop).1]
      exact h.stop
  · rcases step_queue hstep q with hsame | ⟨a, htrack⟩
    · rw [hsame]
      exact h.finished
    · exact lt_of_lt_of_le h.finished (SPMC.track_finished htrack)

/-! ## The events of the others -/

theorem eventsLeft_same (hfault : s.fault = none) (hth : s.threads[c]? = some th)
    (hth' : s'.threads[c]? = some th)
    (hconsumer : (s'.queues th.queue).1.consumers c = (s.queues th.queue).1.consumers c) :
    s'.eventsLeft i c ≤ s.eventsLeft i c := by
  by_cases hfault' : s'.fault = none
  · rw [eventsLeft_eq hfault hth, eventsLeft_eq hfault' hth', Thread.eventsLeft, Thread.eventsLeft,
      hconsumer]
  · rw [eventsLeft_fault hfault']
    exact Nat.zero_le _

theorem consumer_other {q : QueueId} {a : QueueAction} {sh : Broadcast} (h : Inv cfg t0 data s)
    (hth : s.threads[c]? = some th) (htrack : SPMC.track ring (s.queues q) a = .ok sh)
    (hstart : a.starts (.consumer c) = false) (hadvance : a.advances (.consumer c) = false) :
    (Function.update s.queues q sh th.queue).1.consumers c = (s.queues th.queue).1.consumers c := by
  by_cases hq : th.queue = q
  · subst hq
    rw [Function.update_self]
    exact (SPMC.track_other htrack (h.attended c th hth).consumer_ne hstart hadvance).1
  · rw [Function.update_of_ne hq]

theorem Inv.others (h : Inv cfg t0 data s) (hth : s.threads[c]? = some th) (he : ¬ e.isOf c)
    (hstep : System.step cfg s e = .ok s') : s'.eventsLeft i c ≤ s.eventsLeft i c := by
  obtain ⟨hfault, hstepped⟩ := step_ok hstep
  cases hstepped with
  | burst | message | messageFails => exact eventsLeft_same hfault hth hth rfl
  | makeConsumer hq htrack =>
    refine eventsLeft_same hfault hth ?_ (consumer_other h hth htrack rfl rfl)
    rw [List.getElem?_append_left (List.getElem?_eq_some_iff.mp hth).1, hth]
  | push htodo hpushing htrack =>
    exact eventsLeft_same hfault hth hth (consumer_other h hth htrack rfl rfl)
  | produce hpushing ha htrack =>
    obtain ⟨hstart, hadvance⟩ := SPMC.Action.advances_only (q := .consumer c) ha (by simp)
    exact eventsLeft_same hfault hth hth (consumer_other h hth htrack hstart hadvance)
  | @poll d dst th₁ sh hd hloop htrack =>
    exact eventsLeft_same hfault hth hth (consumer_other h hth htrack
      (by simpa [SPMC.Action.starts, Event.isOf] using he) rfl)
  | @consume d a th₁ sh hd hloop ha htrack =>
    have hdc : c ≠ d := by
      rintro rfl
      exact he (by simp [Event.isOf])
    obtain ⟨hstart, hadvance⟩ := SPMC.Action.advances_only (q := .consumer c) ha (by simpa using hdc)
    have hconsumer := consumer_other h hth htrack hstart hadvance
    rcases s.consumed_cases d th₁ sh with ⟨e, -, heq⟩ | ⟨v, -, -, heq⟩ | ⟨-, -, heq⟩
    · exact eventsLeft_same hfault hth (by rw [heq, hth]) (by rw [heq]; exact hconsumer)
    · refine eventsLeft_same hfault hth ?_ (by rw [heq]; exact hconsumer)
      rw [heq, List.getElem?_set_ne (Ne.symm hdc), hth]
    · exact eventsLeft_same hfault hth (by rw [heq, hth]) (by rw [heq]; exact hconsumer)
  | @take d th₁ th₂ msg now hd hloop htake =>
    have hdc : d ≠ c := by
      rintro rfl
      exact he (by simp [Event.isOf])
    refine eventsLeft_same hfault hth ?_ rfl
    rw [List.getElem?_set_ne hdc, hth]
  | @exported d th₁ th₂ opened hd hloop hfile hexport =>
    by_cases hdc : d = c
    · subst hdc
      have hset : (s.threads.set d th₂)[d]? = some th₂ :=
        List.getElem?_set_self (List.getElem?_eq_some_iff.mp hd).1
      rw [eventsLeft_eq (s := { s with threads := s.threads.set d th₂ }) hfault hset, Thread.eventsLeft,
        Thread.exportHistogram_ok hexport, hloop]
      exact Nat.zero_le _
    · refine eventsLeft_same hfault hth ?_ rfl
      rw [List.getElem?_set_ne hdc, hth]
  | takeFails | exportFails =>
    rw [eventsLeft_fault (Option.some_ne_none _)]
    exact Nat.zero_le _

/-! ## Its own events -/

theorem eventsLeft_polling (hfault : s.fault = none) (hth : s.threads[c]? = some th)
    (hloop : th.loop = .polling) {k : SPMC.Consumer Member UInt64}
    (hk : (s.queues th.queue).1.consumers c = some k) :
    s.eventsLeft i c = (i - th.samples.length) * 9 + popCost k.pop := by
  rw [eventsLeft_eq hfault hth, Thread.eventsLeft, hloop, hk]
  rfl

theorem eventsLeft_received (hfault : s.fault = none) (hth : s.threads[c]? = some th) {msg : Words}
    (hloop : th.loop = .received msg) :
    s.eventsLeft i c = (i - th.samples.length) * 9 + 1 := by
  rw [eventsLeft_eq hfault hth, Thread.eventsLeft, hloop]

theorem Ending.poll {dst : Words} {sh : Broadcast} (hfault : s.fault = none)
    (hth : s.threads[c]? = some th) (hloop : th.loop = .polling)
    (htrack : SPMC.track ring (s.queues th.queue) (.pop c dst) = .ok sh) :
    System.eventsLeft i c { s with queues := Function.update s.queues th.queue sh } <
      s.eventsLeft i c := by
  obtain ⟨⟨k, hk, hidle⟩, ⟨k', hk', hpop⟩, -⟩ := SPMC.track_pop htrack
  have hcalled : Function.update s.queues th.queue sh th.queue = sh := Function.update_self ..
  rw [eventsLeft_polling hfault hth hloop hk, hidle,
    eventsLeft_polling (s := { s with queues := Function.update s.queues th.queue sh }) hfault hth hloop
      (hcalled.symm ▸ hk'), hpop]
  exact Nat.add_lt_add_left (by decide : popCost (.loadFirst fun _ => 0) < popCost .idle) _

theorem Ending.consume {a : QueueAction} {sh : Broadcast} (h : Ending cfg t0 data c i q s)
    (hfault : s.fault = none) (hth : s.threads[c]? = some th) (hq : th.queue = q)
    (hloop : th.loop = .polling) (ha : a.advances (.consumer c) = true)
    (htrack : SPMC.track ring (s.queues th.queue) a = .ok sh) :
    (s.consumed c th sh).eventsLeft i c < s.eventsLeft i c := by
  obtain ⟨k, hk, -⟩ := (h.inv.attended c th hth).consumer
  have hold := eventsLeft_polling (i := i) hfault hth hloop hk
  have htwo := two_le_popCost k.pop
  rcases s.consumed_cases c th sh with ⟨e, -, heq⟩ | ⟨v, hab, hv, heq⟩ | ⟨hab, hv, heq⟩
  · rw [heq, eventsLeft_fault (Option.some_ne_none _), hold]
    omega
  · have hth' : (s.threads.set c { th with loop := .received v })[c]? =
        some { th with loop := .received v } :=
      List.getElem?_set_self (List.getElem?_eq_some_iff.mp hth).1
    rw [heq, hold, eventsLeft_received (s := { s with
      queues := Function.update s.queues th.queue sh
      threads := s.threads.set c { th with loop := .received v } }) hfault hth' rfl]
    show (i - th.samples.length) * 9 + 1 < _
    omega
  · have hinv := h.inv.queue_inv h.few th.queue
    have hfew := lt_of_le_of_lt (h.inv.length_le th.queue) h.few
    obtain ⟨k', hk', hbusy⟩ := SPMC.track_ready hinv hfew htrack ha
      (fun k hk => hq ▸ h.ready hth hq hloop (hq ▸ hk)) hab hv
    have hcalled : Function.update s.queues th.queue sh th.queue = sh := Function.update_self ..
    have hstep := (SPMC.track_ok htrack).1
    have hlower := (SPMC.step_eases (p := .consumer c) hstep
      (SPMC.Action.starts_advances ha)).2 ha
    rw [SPMC.work_consumer hab hk', SPMC.work_consumer (SPMC.step_ok ring hstep).1 hk] at hlower
    have hbusy₀ : k.pop ≠ .idle := k.pop.work_pos.mpr (Nat.zero_lt_of_lt hlower)
    rw [heq, hold, eventsLeft_polling (s := { s with
      queues := Function.update s.queues th.queue sh }) hfault hth hloop (hcalled.symm ▸ hk'),
      popCost_busy hbusy, popCost_busy hbusy₀]
    omega

theorem Ending.take {th' : Thread} {msg : Words} {now : UInt64} (hfault : s.fault = none)
    (hth : s.threads[c]? = some th) (hq : th.queue = q) (hloop : th.loop = .received msg)
    (htake : th.take cfg.freq now msg = .ok th')
    (h' : Ending cfg t0 data c i q { s with threads := s.threads.set c th' }) :
    System.eventsLeft i c { s with threads := s.threads.set c th' } < s.eventsLeft i c := by
  have hset : (s.threads.set c th')[c]? = some th' :=
    List.getElem?_set_self (List.getElem?_eq_some_iff.mp hth).1
  generalize hs' : ({ s with threads := s.threads.set c th' } : System) = s' at h' ⊢
  have hfault' : s'.fault = none := hs' ▸ hfault
  have hth' : s'.threads[c]? = some th' := hs' ▸ hset
  have hle := h'.samples_le hth' ((th.take_queue htake).trans hq)
  obtain ⟨k, hk, -⟩ := (h'.inv.attended c th' hth').consumer
  have hnine := popCost_le k.pop
  rw [eventsLeft_received hfault hth hloop]
  unfold Thread.take at htake
  split at htake
  · cases htake
    rw [eventsLeft_eq hfault' hth']
    exact Nat.succ_pos _
  · obtain ⟨ns, -, htake⟩ := bind_eq_ok.mp htake
    cases htake
    rw [eventsLeft_polling hfault' hth' rfl hk]
    simp only [List.length_append, List.length_singleton] at hle ⊢
    omega

theorem Ending.own (h : Ending cfg t0 data c i q s) (he : e.isOf c = true)
    (hstep : System.step cfg s e = .ok s') : s'.eventsLeft i c < s.eventsLeft i c := by
  obtain ⟨hfault, hstepped⟩ := step_ok hstep
  obtain ⟨th, hth, hq⟩ := h.thread
  cases hstepped with
  | @poll d dst th₁ sh hd hloop htrack =>
    obtain rfl : d = c := of_decide_eq_true he
    exact Ending.poll hfault hd hloop htrack
  | @consume d a th₁ sh hd hloop ha htrack =>
    obtain rfl : d = c := of_decide_eq_true he
    obtain rfl : th₁ = th := Option.some.inj (hd.symm.trans hth)
    exact h.consume hfault hd hq hloop ha htrack
  | @take d th₁ th' msg now hd hloop htake =>
    obtain rfl : d = c := of_decide_eq_true he
    obtain rfl : th₁ = th := Option.some.inj (hd.symm.trans hth)
    exact Ending.take hfault hd hq hloop htake (h.step hstep h.few)
  | @takeFails d th₁ msg now fault hd hloop htake =>
    obtain rfl : d = c := of_decide_eq_true he
    rw [eventsLeft_fault (Option.some_ne_none _), eventsLeft_received hfault hd hloop]
    exact Nat.succ_pos _
  | makeConsumer | burst | message | messageFails | push | produce | exported | exportFails => cases he

/-! ## A thread can go on -/

/-- A queue aborts with the process. -/
def Alive (s : System) : Prop := s.fault = none → ∀ q, (s.queues q).1.aborted = none

theorem alive_update (halive : Alive s) (hfault : s.fault = none) {sh : Broadcast}
    (hab : sh.1.aborted = none) (q' : QueueId) :
    (Function.update s.queues q sh q').1.aborted = none := by
  by_cases hq : q' = q
  · rw [hq, Function.update_self, hab]
  · rw [Function.update_of_ne hq, halive hfault]

theorem Alive.step (halive : Alive s) (hstep : System.step cfg s e = .ok s') : Alive s' := by
  obtain ⟨hfault, hstepped⟩ := step_ok hstep
  cases hstepped with
  | makeConsumer hq htrack | push htodo hpushing htrack | poll hth hloop htrack =>
    exact fun _ => alive_update halive hfault (SPMC.track_aborted htrack fun _ => rfl)
  | produce hpushing ha htrack =>
    exact fun _ => alive_update halive hfault (SPMC.track_aborted htrack fun c =>
      (SPMC.Action.advances_only (q := .consumer c) ha (by simp)).2)
  | @consume d a th₁ sh hd hloop ha htrack =>
    rcases s.consumed_cases d th₁ sh with ⟨e, -, heq⟩ | ⟨v, hab, -, heq⟩ | ⟨hab, -, heq⟩
    · rw [heq]
      exact fun hnone => by cases hnone
    · rw [heq]
      exact fun _ => alive_update halive hfault hab
    · rw [heq]
      exact fun _ => alive_update halive hfault hab
  | messageFails | takeFails | exportFails => exact fun hnone => by cases hnone
  | burst | message | take | exported => exact halive

theorem track_of_step {sh : Broadcast} {a : QueueAction} {s' : SPMC.State Member UInt64 ℕ}
    (h : SPMC.step ring sh.1 a = .ok s') : SPMC.track ring sh a = .ok (s', SPMC.observe sh.1 a s' sh.2) := by
  rw [SPMC.track, h]

theorem can_go_on (halive : Alive s) (hfault : s.fault = none) (hth : s.threads[c]? = some th)
    (hatt : Attended cfg (s.queues th.queue) c th) (hloop : th.loop ≠ .stopped) :
    ∃ e u, Event.isOf e c = true ∧ System.step cfg s e = .ok u := by
  have hab := halive hfault th.queue
  obtain ⟨queue, loop, hist, skipped, samples, file⟩ := th
  cases loop with
  | stopped => exact absurd rfl hloop
  | received msg =>
    refine ⟨.take c 0, ?_⟩
    simp only [System.step, hfault, event, hth, Event.isOf, decide_true, true_and]
    split
    · exact ⟨_, rfl⟩
    · exact ⟨_, rfl⟩
  | polling =>
    obtain ⟨⟨reader, pop, result⟩, hk, -⟩ := hatt.consumer
    by_cases hidle : pop = .idle
    · subst hidle
      obtain ⟨u, hstep⟩ : ∃ u, SPMC.step ring (s.queues queue).1 (.pop c fun _ => 0) = .ok u := by
        simp only [SPMC.step, SPMC.consumerStep, hab, hk]
        exact ⟨_, rfl⟩
      refine ⟨.poll c fun _ => 0, ?_⟩
      simp only [System.step, hfault, event, hth, Event.isOf, decide_true, true_and,
        track_of_step hstep]
      exact ⟨_, rfl⟩
    · obtain ⟨a, u, ha, hstep⟩ := SPMC.busy_enabled (g := ring) (p := .consumer c) ⟨hab, _, hk, hidle⟩
      refine ⟨.consume c a, ?_⟩
      simp only [System.step, hfault, event, hth, ha, Event.isOf, decide_true, true_and,
        track_of_step hstep]
      exact ⟨_, rfl⟩

end System

/-! ## Runs -/

section Runs
variable {cfg : Config} {t0 : UInt64} {data : QueueId → ℕ → Words} {es₀ es : List Event}
  {s t : System} {c i : ℕ} {th : Thread}

theorem run_pushed (hrun : run (System.step cfg) s es = .ok t) :
    s.handler.pushed.length ≤ t.handler.pushed.length :=
  run_invariant (fun u => s.handler.pushed.length ≤ u.handler.pushed.length) (le_refl _)
    (fun _ _ _ hle hstep => hle.trans (System.step_pushed hstep)) hrun

theorem ending_throughout {q : QueueId} (h : System.Ending cfg t0 data c i q s)
    (hrun : run (System.step cfg) s es = .ok t) (hfew : t.handler.pushed.length < 2 ^ 63) :
    Throughout (System.step cfg) (System.Ending cfg t0 data c i q) s es := by
  intro pre post u heq hu
  subst heq
  have hpost : run (System.step cfg) u post = .ok t := (run_append_of_ok hu post).symm.trans hrun
  have hfewer := lt_of_le_of_lt (run_pushed hpost) hfew
  refine run_invariant (fun u => u.handler.pushed.length < 2 ^ 63 → System.Ending cfg t0 data c i q u)
    (fun _ => h) (fun v e w ih hstep hw => ?_) hu hfewer
  exact (ih (lt_of_le_of_lt (System.step_pushed hstep) hw)).step hstep hw

/-- **Every strategy ends**: when push `i` of its queue is a `Stop` and has finished, the thread leaves its
loop after at most `9 * (i + 1)` events of it, whatever the others do, unless the process is aborted; and
until then it can always go on. -/
theorem strategy_stops
    (hrun₀ : run (System.step cfg) (System.init cfg t0 data) es₀ = .ok s)
    (hrun : run (System.step cfg) s es = .ok t) (hfew : t.handler.pushed.length < 2 ^ 63)
    (hth : s.threads[c]? = some th)
    (hstop : (s.queues th.queue).2.pushed[i]? = some StrategyMsg.stop.words)
    (hfinished : i < (s.queues th.queue).2.finished) :
    es.countP (fun e => e.isOf c) ≤ 9 * (i + 1) ∧
      (t.fault ≠ none ∨ (∃ th', t.threads[c]? = some th' ∧ th'.loop = .stopped) ∨
        es.countP (fun e => e.isOf c) < 9 * (i + 1) ∧
          ∃ e u, Event.isOf e c = true ∧ System.step cfg t e = .ok u) := by
  have hfew₀ := lt_of_le_of_lt (run_pushed hrun) hfew
  have hending : System.Ending cfg t0 data c i th.queue s :=
    ⟨System.run_inv hrun₀ hfew₀, hfew₀, ⟨th, hth, rfl⟩, hstop, hfinished⟩
  have hthroughout := ending_throughout hending hrun hfew
  have hranked : Ranked (System.step cfg) (System.Ending cfg t0 data c i th.queue) (fun _ => True)
      (fun e : Event => e.isOf c = true) (fun s => s.eventsLeft i c) := by
    refine ⟨fun _ _ _ h _ hmine hstep => h.own hmine hstep, fun u e u' h _ hmine hstep => ?_⟩
    obtain ⟨th', hth', -⟩ := h.thread
    exact h.inv.others hth' hmine hstep
  have hcount := hranked.count_le hthroughout (fun _ _ => trivial) hrun
  simp only [Bool.decide_eq_true] at hcount
  have hbound : s.eventsLeft i c ≤ 9 * (i + 1) := by
    by_cases hfault : s.fault = none
    · rw [System.eventsLeft_eq hfault hth]
      exact th.eventsLeft_le i c _
    · rw [System.eventsLeft_fault hfault]
      exact Nat.zero_le _
  refine ⟨by omega, ?_⟩
  by_cases hfault : t.fault = none
  · obtain ⟨th', hth', hqueue⟩ := (hthroughout.last hrun).thread
    have hatt := (hthroughout.last hrun).inv.attended c th' hth'
    by_cases hloop : th'.loop = .stopped
    · exact .inr (.inl ⟨th', hth', hloop⟩)
    · have hpos := hatt.eventsLeft_pos hloop i
      rw [← System.eventsLeft_eq hfault hth'] at hpos
      have halive : System.Alive t := run_invariant System.Alive (fun _ _ => rfl)
        (fun _ _ _ h hstep => h.step hstep) ((run_append_of_ok hrun₀ es).trans hrun)
      exact .inr (.inr ⟨by omega, System.can_go_on halive hfault hth' hatt hloop⟩)
  · exact .inl hfault

end Runs

/-! ## A `Stop` on its way -/

theorem stops_one {h : Handler} {L : UInt16} {q : QueueId}
    (htable : h.locateToQueue = Function.update (fun _ => none) L (some q)) :
    h.stops = [⟨L, q, .stop⟩] := by
  have hL := L.toNat_lt
  have hother : ∀ i : ℕ, i < 65536 → i ≠ L.toNat → h.locateToQueue (UInt16.ofNat i) = none := by
    intro i hi hne
    rw [htable, Function.update_of_ne]
    rintro rfl
    exact hne (UInt16.toNat_ofNat_of_lt' hi).symm
  have hsplit : List.range 65536 = List.range L.toNat ++
      L.toNat :: (List.range (65535 - L.toNat)).map fun i => L.toNat + 1 + i := by
    have hsum : 65536 = L.toNat + 1 + (65535 - L.toNat) := by omega
    rw [hsum, List.range_add, List.range_succ, List.append_assoc]
    rfl
  rw [Handler.stops, hsplit, List.filterMap_append, List.filterMap_cons]
  have hleft : (List.range L.toNat).filterMap (fun i =>
      (h.locateToQueue (UInt16.ofNat i)).map fun q => (⟨UInt16.ofNat i, q, .stop⟩ : Push)) = [] := by
    refine List.filterMap_eq_nil_iff.mpr fun i hi => ?_
    have hlt := List.mem_range.mp hi
    rw [hother i (by omega) hlt.ne, Option.map_none]
  have hright : ((List.range (65535 - L.toNat)).map fun i => L.toNat + 1 + i).filterMap (fun i =>
      (h.locateToQueue (UInt16.ofNat i)).map fun q => (⟨UInt16.ofNat i, q, .stop⟩ : Push)) = [] := by
    refine List.filterMap_eq_nil_iff.mpr fun i hi => ?_
    obtain ⟨j, hj, rfl⟩ := List.mem_map.mp hi
    have hlt := List.mem_range.mp hj
    rw [hother _ (by omega) (by omega), Option.map_none]
  rw [hleft, hright, UInt16.ofNat_toNat, htable, Function.update_self]
  rfl

/-- The end event is the next message. -/
def ending : System :=
  match run (System.step oneStrategy) (System.init oneStrategy 0 fun _ _ _ => 0)
    (arrivalEvents endFrame) with
  | .ok s => s
  | .error _ => System.init oneStrategy 0 fun _ _ _ => 0

def ended : System :=
  { ending with
    handler := { ending.handler with t0 := 5, lastMessage := true, pushed := [⟨9, 0, .stop⟩] }
    inbox := []
    todo := [⟨9, 0, .stop⟩]
    handled := ending.handled ++ [⟨5, .systemEvent, ⟨0, 0, 0, 67⟩⟩] }

theorem ended_step : System.step oneStrategy ending (.message 5) = .ok ended := by
  have hstops : (ending.handler.handleBefore 5).stops = [⟨9, 0, .stop⟩] := stops_one rfl
  have hdeliver : deliver ending.handler ⟨5, .systemEvent, ⟨0, 0, 0, 67⟩⟩ = .ok ended.handler := by
    have heq : deliver ending.handler ⟨5, .systemEvent, ⟨0, 0, 0, 67⟩⟩ =
        .ok { ending.handler.handleBefore 5 with
          lastMessage := true
          pushed := ending.handler.pushed ++ (ending.handler.handleBefore 5).stops } := rfl
    rw [heq, hstops]
    rfl
  have hfault : ending.fault = none := rfl
  have hinbox : ending.inbox = [⟨.systemEvent, ⟨0, 0, 0, 67⟩⟩] := rfl
  have htodo : ending.todo = [] := rfl
  have hpushing : ending.pushing = none := rfl
  simp only [System.step, System.event, hfault, hinbox, htodo, hpushing, hdeliver]
  rfl

theorem run_ended : run (System.step oneStrategy) (System.init oneStrategy 0 fun _ _ _ => 0)
    (arrivalEvents endFrame ++ [.message 5]) = .ok ended := by
  have harrival : run (System.step oneStrategy) (System.init oneStrategy 0 fun _ _ _ => 0)
      (arrivalEvents endFrame) = .ok ending := rfl
  exact (run_concat harrival _).trans ended_step

/-- The thread has taken its nine events. -/
theorem strategy_stops_sample : ∃ s t th',
    run (System.step oneStrategy) (System.init oneStrategy 0 fun _ _ _ => 0)
      (arrivalEvents endFrame ++ [.message 5] ++ pushEvents) = .ok s ∧
    run (System.step oneStrategy) s popEvents = .ok t ∧ t.threads[0]? = some th' ∧
    th'.loop = .stopped := by
  obtain ⟨s, t, th, hpush, hrun, hth, hstop, hfinished, hpushed, hfault⟩ : ∃ s t th,
      run (System.step oneStrategy) ended pushEvents = .ok s ∧
      run (System.step oneStrategy) s popEvents = .ok t ∧ s.threads[0]? = some th ∧
      (s.queues th.queue).2.pushed[0]? = some StrategyMsg.stop.words ∧
      (s.queues th.queue).2.finished = 1 ∧ t.handler.pushed.length = 1 ∧ t.fault = none :=
    ⟨_, _, _, rfl, rfl, rfl, rfl, rfl, rfl, rfl⟩
  have hrun₀ : run (System.step oneStrategy) (System.init oneStrategy 0 fun _ _ _ => 0)
      (arrivalEvents endFrame ++ [.message 5] ++ pushEvents) = .ok s := by
    rw [run_append_of_ok run_ended, hpush]
  obtain ⟨-, hdead | ⟨th', hth', hloop⟩ | ⟨hcount, -⟩⟩ :=
    strategy_stops hrun₀ hrun (by rw [hpushed]; decide) hth hstop (by rw [hfinished]; decide)
  · exact absurd hfault hdead
  · exact ⟨s, t, th', hrun₀, hrun, hth', hloop⟩
  · exact absurd hcount (by decide)

end ItchIngestion.Engine
