import ItchIngestion.Engine.Session
import ItchIngestion.Engine.Strategy

/-! # The whole program (`main.cpp`)

The main thread creates the consumers and their threads, then runs the ingestion loop: it takes a
burst when the handler does not ask it to stop, and gives its messages to the handler one by one. The
threads pop from the queues meanwhile. What the handler does to its own data is one event, since no
other thread sees it; the pushes that the call makes are `todo`, and each of them goes step by step
through the queue. An event that reads a time stamp counter brings the reading along; every core has a
counter of its own. Behind its loop a thread opens its file, or cannot.

`step` is the program, `Stepped` what one event can do. A fault ends the process. An observer notes
the bursts taken and the messages handled; nothing depends on these.
-/
namespace ItchIngestion.Engine
open Library OB
set_option autoImplicit false

def Delivery.message (d : Delivery) : Message := ⟨d.ty, d.msg⟩

abbrev Broadcast := SPMC.State Member UInt64 ℕ × SPMC.History Member UInt64 ℕ

/-- An action in a queue; the consumers are numbered. -/
abbrev QueueAction := SPMC.Action Member UInt64 ℕ

/-! ## The code -/

/-- The instruments, the queue of each consumer in the order of `consumer_configs`, and the result
of `calibrate_tsc`. -/
structure Config where
  instruments : List InstrumentConfig
  consumers : List QueueId
  freq : UInt64

/-- The whole program: the main thread, the queues and the consumer threads. -/
structure System where
  handler : Handler
  /-- The messages of the burst that are still to be handled. -/
  inbox : List Message
  /-- The pushes that the call of the handler has still to make. -/
  todo : List Push
  pushing : Option Push
  queues : QueueId → Broadcast
  threads : List Thread
  fault : Option Fault
  bursts : List (List Message)
  handled : List Delivery

/-- What can happen next. -/
inductive Event
  | makeConsumer
  | burst (ms : List Message)
  | message (tsc : UInt64)
  | push
  | produce (a : QueueAction)
  | poll (c : ℕ) (dst : Words)
  | consume (c : ℕ) (a : QueueAction)
  | take (c : ℕ) (now : UInt64)
  | exportHistogram (c : ℕ) (opened : Bool)

namespace System

/-- The program before the first consumer is made. -/
def init (cfg : Config) (t0 : UInt64) (data : QueueId → ℕ → Words) : System where
  handler := .init t0 cfg.instruments
  inbox := []
  todo := []
  pushing := none
  queues q := (SPMC.init (data q), .init)
  threads := []
  fault := none
  bursts := []
  handled := []

/-- The push is over when the producer is idle again. -/
def stillPushing (p : Push) (sh : Broadcast) : Option Push :=
  match sh.1.producer with
  | .idle => none
  | _ => some p

/-- Behind a step of its `pop`: the process aborts, the thread has a message, or it goes on. -/
def consumed (s : System) (c : ℕ) (th : Thread) (sh : Broadcast) : System :=
  let s := { s with queues := Function.update s.queues th.queue sh }
  match sh.1.aborted, SPMC.returned sh.1 c with
  | some message, _ => { s with fault := some (.unexpected message) }
  | none, some v => { s with threads := s.threads.set c { th with loop := .received v } }
  | none, none => s

theorem consumed_queues (s : System) (c : ℕ) (th : Thread) (sh : Broadcast) :
    (s.consumed c th sh).queues = Function.update s.queues th.queue sh := by
  unfold consumed
  dsimp only
  split <;> rfl

theorem consumed_cases (s : System) (c : ℕ) (th : Thread) (sh : Broadcast) :
    (∃ e, sh.1.aborted = some e ∧ s.consumed c th sh = { s with
      queues := Function.update s.queues th.queue sh, fault := some (.unexpected e) }) ∨
    (∃ v, sh.1.aborted = none ∧ SPMC.returned sh.1 c = some v ∧ s.consumed c th sh = { s with
      queues := Function.update s.queues th.queue sh
      threads := s.threads.set c { th with loop := .received v } }) ∨
    (sh.1.aborted = none ∧ SPMC.returned sh.1 c = none ∧
      s.consumed c th sh = { s with queues := Function.update s.queues th.queue sh }) := by
  unfold consumed
  cases hab : sh.1.aborted with
  | some e => exact .inl ⟨e, rfl, rfl⟩
  | none =>
    cases hv : SPMC.returned sh.1 c with
    | some v => exact .inr (.inl ⟨v, rfl, rfl, rfl⟩)
    | none => exact .inr (.inr ⟨rfl, rfl, rfl⟩)

/-- An event of a process that runs. -/
def event (cfg : Config) (s : System) (e : Event) : Except SPMC.Disabled System :=
  match e with
  | .makeConsumer =>
    match cfg.consumers[s.threads.length]? with
    | none => .error .disabled
    | some q => do
      let sh ← SPMC.track ring (s.queues q) (.makeConsumer s.threads.length)
      return { s with queues := Function.update s.queues q sh, threads := s.threads ++ [.start q] }
  | .burst ms =>
    -- the consumers come first; the loop asks `should_stop` between two bursts
    if s.threads.length = cfg.consumers.length ∧ s.inbox = [] ∧ s.todo = [] ∧ s.pushing = none ∧
        s.handler.shouldStop = false then
      .ok { s with inbox := ms, bursts := s.bursts ++ [ms] }
    else .error .disabled
  | .message tsc =>
    match s.inbox, s.todo, s.pushing with
    | m :: ms, [], none =>
      let d := ⟨tsc, m.1, m.2⟩
      match deliver s.handler d with
      | .ok h =>
        .ok { s with
          handler := h
          inbox := ms
          todo := h.pushed.drop s.handler.pushed.length
          handled := s.handled ++ [d] }
      | .error fault => .ok { s with fault := some fault }
    | _, _, _ => .error .disabled
  | .push =>
    match s.todo, s.pushing with
    | p :: todo, none => do
      let sh ← SPMC.track ring (s.queues p.queue) (.push p.msg.words)
      return { s with
        queues := Function.update s.queues p.queue sh, todo := todo, pushing := some p }
    | _, _ => .error .disabled
  | .produce a =>
    match s.pushing, a.advances .producer with
    | some p, true => do
      let sh ← SPMC.track ring (s.queues p.queue) a
      return { s with
        queues := Function.update s.queues p.queue sh, pushing := stillPushing p sh }
    | _, _ => .error .disabled
  | .poll c dst =>
    match s.threads[c]? with
    | some ⟨queue, .polling, _, _, _, _⟩ => do
      let sh ← SPMC.track ring (s.queues queue) (.pop c dst)
      return { s with queues := Function.update s.queues queue sh }
    | _ => .error .disabled
  | .consume c a =>
    match s.threads[c]?, a.advances (.consumer c) with
    | some th, true =>
      match th.loop with
      | .polling => do
        let sh ← SPMC.track ring (s.queues th.queue) a
        return s.consumed c th sh
      | _ => .error .disabled
    | _, _ => .error .disabled
  | .take c now =>
    match s.threads[c]? with
    | none => .error .disabled
    | some th =>
      match th.loop with
      | .received msg =>
        match th.take cfg.freq now msg with
        | .ok th => .ok { s with threads := s.threads.set c th }
        | .error fault => .ok { s with fault := some fault }
      | _ => .error .disabled
  | .exportHistogram c opened =>
    match s.threads[c]? with
    | none => .error .disabled
    | some th =>
      match th.loop, th.file with
      | .stopped, none =>
        match th.exportHistogram opened with
        | .ok th => .ok { s with threads := s.threads.set c th }
        | .error fault => .ok { s with fault := some fault }
      | _, _ => .error .disabled

def step (cfg : Config) (s : System) (e : Event) : Except SPMC.Disabled System :=
  match s.fault with
  | some _ => .error .disabled
  | none => event cfg s e

/-! ## What an event can do -/

/-- The cases of `event`, with their conditions. -/
inductive Stepped (cfg : Config) (s : System) : Event → System → Prop
  | makeConsumer {q : QueueId} {sh : Broadcast} (hq : cfg.consumers[s.threads.length]? = some q)
      (htrack : SPMC.track ring (s.queues q) (.makeConsumer s.threads.length) = .ok sh) :
      Stepped cfg s .makeConsumer
        { s with queues := Function.update s.queues q sh, threads := s.threads ++ [.start q] }
  | burst {ms : List Message} (hall : s.threads.length = cfg.consumers.length)
      (hinbox : s.inbox = []) (htodo : s.todo = []) (hpushing : s.pushing = none)
      (hlive : s.handler.shouldStop = false) :
      Stepped cfg s (.burst ms) { s with inbox := ms, bursts := s.bursts ++ [ms] }
  | message {m : Message} {ms : List Message} {h : Handler} {tsc : UInt64} (hinbox : s.inbox = m :: ms)
      (htodo : s.todo = []) (hpushing : s.pushing = none)
      (hdeliver : deliver s.handler ⟨tsc, m.1, m.2⟩ = .ok h) :
      Stepped cfg s (.message tsc) { s with
        handler := h
        inbox := ms
        todo := h.pushed.drop s.handler.pushed.length
        handled := s.handled ++ [⟨tsc, m.1, m.2⟩] }
  | push {p : Push} {todo : List Push} {sh : Broadcast} (htodo : s.todo = p :: todo)
      (hpushing : s.pushing = none)
      (htrack : SPMC.track ring (s.queues p.queue) (.push p.msg.words) = .ok sh) :
      Stepped cfg s .push { s with
        queues := Function.update s.queues p.queue sh, todo := todo, pushing := some p }
  | produce {p : Push} {a : QueueAction} {sh : Broadcast} (hpushing : s.pushing = some p)
      (ha : a.advances .producer = true)
      (htrack : SPMC.track ring (s.queues p.queue) a = .ok sh) :
      Stepped cfg s (.produce a) { s with
        queues := Function.update s.queues p.queue sh, pushing := stillPushing p sh }
  | poll {c : ℕ} {dst : Words} {th : Thread} {sh : Broadcast} (hth : s.threads[c]? = some th)
      (hloop : th.loop = .polling)
      (htrack : SPMC.track ring (s.queues th.queue) (.pop c dst) = .ok sh) :
      Stepped cfg s (.poll c dst) { s with queues := Function.update s.queues th.queue sh }
  | consume {c : ℕ} {a : QueueAction} {th : Thread} {sh : Broadcast}
      (hth : s.threads[c]? = some th) (hloop : th.loop = .polling)
      (ha : a.advances (.consumer c) = true)
      (htrack : SPMC.track ring (s.queues th.queue) a = .ok sh) :
      Stepped cfg s (.consume c a) (s.consumed c th sh)
  | take {c : ℕ} {th th' : Thread} {msg : Words} {now : UInt64} (hth : s.threads[c]? = some th)
      (hloop : th.loop = .received msg) (htake : th.take cfg.freq now msg = .ok th') :
      Stepped cfg s (.take c now) { s with threads := s.threads.set c th' }
  | exported {c : ℕ} {th th' : Thread} {opened : Bool} (hth : s.threads[c]? = some th)
      (hloop : th.loop = .stopped) (hfile : th.file = none)
      (hexport : th.exportHistogram opened = .ok th') :
      Stepped cfg s (.exportHistogram c opened) { s with threads := s.threads.set c th' }
  | messageFails {m : Message} {ms : List Message} {tsc : UInt64} {fault : Fault}
      (hinbox : s.inbox = m :: ms) (hdeliver : deliver s.handler ⟨tsc, m.1, m.2⟩ = .error fault) :
      Stepped cfg s (.message tsc) { s with fault := some fault }
  | takeFails {c : ℕ} {th : Thread} {msg : Words} {now : UInt64} {fault : Fault}
      (hth : s.threads[c]? = some th) (hloop : th.loop = .received msg)
      (htake : th.take cfg.freq now msg = .error fault) :
      Stepped cfg s (.take c now) { s with fault := some fault }
  | exportFails {c : ℕ} {th : Thread} {opened : Bool} {fault : Fault} (hth : s.threads[c]? = some th)
      (hloop : th.loop = .stopped) (hfile : th.file = none)
      (hexport : th.exportHistogram opened = .error fault) :
      Stepped cfg s (.exportHistogram c opened) { s with fault := some fault }

theorem event_ok {cfg : Config} {s s' : System} {e : Event} (h : event cfg s e = .ok s') :
    Stepped cfg s e s' := by
  unfold event at h
  cases e with
  | makeConsumer =>
    dsimp only at h
    split at h
    · cases h
    · rename_i q hq
      obtain ⟨sh, htrack, h⟩ := bind_eq_ok.mp h
      cases h
      exact .makeConsumer hq htrack
  | burst ms =>
    dsimp only at h
    split at h
    · rename_i hready
      obtain ⟨hall, hinbox, htodo, hpushing, hlive⟩ := hready
      cases h
      exact .burst hall hinbox htodo hpushing hlive
    · cases h
  | message tsc =>
    dsimp only at h
    split at h
    · rename_i m ms hinbox htodo hpushing
      split at h
      · rename_i hdeliver
        cases h
        exact .message hinbox htodo hpushing hdeliver
      · rename_i hdeliver
        cases h
        exact .messageFails hinbox hdeliver
    · cases h
  | push =>
    dsimp only at h
    split at h
    · rename_i p todo htodo hpushing
      obtain ⟨sh, htrack, h⟩ := bind_eq_ok.mp h
      cases h
      exact .push htodo hpushing htrack
    · cases h
  | produce a =>
    dsimp only at h
    split at h
    · rename_i p hpushing ha
      obtain ⟨sh, htrack, h⟩ := bind_eq_ok.mp h
      cases h
      exact .produce hpushing ha htrack
    · cases h
  | poll c dst =>
    dsimp only at h
    split at h
    · rename_i queue hist skipped samples file hth
      obtain ⟨sh, htrack, h⟩ := bind_eq_ok.mp h
      cases h
      exact .poll hth rfl htrack
    · cases h
  | consume c a =>
    dsimp only at h
    split at h
    · rename_i th hth ha
      split at h
      · rename_i hloop
        obtain ⟨sh, htrack, h⟩ := bind_eq_ok.mp h
        cases h
        exact .consume hth hloop ha htrack
      · cases h
    · cases h
  | take c now =>
    dsimp only at h
    split at h
    · cases h
    · rename_i th hth
      split at h
      · rename_i msg hloop
        split at h
        · rename_i th' htake
          cases h
          exact .take hth hloop htake
        · rename_i htake
          cases h
          exact .takeFails hth hloop htake
      · cases h
  | exportHistogram c opened =>
    dsimp only at h
    split at h
    · cases h
    · rename_i th hth
      split at h
      · rename_i hloop hfile
        split at h
        · rename_i th' hexport
          cases h
          exact .exported hth hloop hfile hexport
        · rename_i hexport
          cases h
          exact .exportFails hth hloop hfile hexport
      · cases h

theorem step_ok {cfg : Config} {s s' : System} {e : Event} (h : step cfg s e = .ok s') :
    s.fault = none ∧ Stepped cfg s e s' := by
  unfold step at h
  split at h
  · cases h
  · rename_i hfault
    exact ⟨hfault, event_ok h⟩

theorem step_queue {cfg : Config} {s s' : System} {e : Event} (h : step cfg s e = .ok s')
    (q : QueueId) :
    s'.queues q = s.queues q ∨ ∃ a, SPMC.track ring (s.queues q) a = .ok (s'.queues q) := by
  have hupdate : ∀ (q' : QueueId) (a : QueueAction) (sh : Broadcast),
      SPMC.track ring (s.queues q') a = .ok sh →
      Function.update s.queues q' sh q = s.queues q ∨
        ∃ a, SPMC.track ring (s.queues q) a = .ok (Function.update s.queues q' sh q) := by
    intro q' a sh htrack
    by_cases hq : q = q'
    · subst hq
      exact .inr ⟨a, by rw [Function.update_self, htrack]⟩
    · exact .inl (Function.update_of_ne hq ..)
  cases (step_ok h).2 with
  | makeConsumer hq htrack => exact hupdate _ _ _ htrack
  | push htodo hpushing htrack => exact hupdate _ _ _ htrack
  | produce hpushing ha htrack => exact hupdate _ _ _ htrack
  | poll hth hloop htrack => exact hupdate _ _ _ htrack
  | consume hth hloop ha htrack =>
    rw [consumed_queues]
    exact hupdate _ _ _ htrack
  | _ => exact .inl rfl

end System

end ItchIngestion.Engine
