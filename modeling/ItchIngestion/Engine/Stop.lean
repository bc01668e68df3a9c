import ItchIngestion.Engine.Routing

/-! # The end of messages

The event with the code `C` makes `should_stop` true and pushes `Stop` to the queues that the routing
table knows by then. A queue is in the table only if a directory message has put it there, so the
strategies of an instrument that the feed has not announced are never told (`stop_reaches_iff`).
-/
namespace ItchIngestion.Engine
open Library ITCH OB
set_option autoImplicit false

def Handler.shouldStop (h : Handler) : Bool := h.lastMessage

/-- Each configured queue has got a `Stop`. -/
def AllStopped (instruments : List InstrumentConfig) (h : Handler) : Prop :=
  ∀ cfg ∈ instruments, ∀ q, cfg.queue = some q → ∃ p ∈ h.pushed, p.queue = q ∧ p.msg = .stop

/-- Each configured queue is the one of a deciding directory message. -/
def AllAnnounced (instruments : List InstrumentConfig) (ds : List Delivery) : Prop :=
  ∀ cfg ∈ instruments, ∀ q, cfg.queue = some q →
    ∃ L cfg', firstConfig instruments L ds = some cfg' ∧ cfg'.queue = some q

/-- Nothing has been stopped. -/
structure Running (h : Handler) : Prop where
  live : h.shouldStop = false
  updates : ∀ p ∈ h.pushed, p.msg ≠ .stop

section Steps
variable {h h' : Handler} {d : Delivery}

/-- **Before the last message nothing is stopped.** -/
theorem Running.deliver (hr : Running h) (hd : ¬ d.IsLast) (hrun : deliver h d = .ok h') :
    Running h' := by
  cases deliver_cases hrun with
  | quiet recordPrices hlast hdirectory heq =>
    subst heq
    exact ⟨hr.live, hr.updates⟩
  | last hlast hdirectory heq => exact absurd hlast hd
  | bound msg cfg hlast hdirectory hlocate hcfg hfree heq =>
    subst heq
    exact ⟨hr.live, hr.updates⟩
  | traded maxOrders op i book book' change ps hlast hdirectory hbound hbook happly hps heq =>
    subst heq
    refine ⟨hr.live, fun p hp => ?_⟩
    cases List.mem_append.mp hp with
    | inl hp => exact hr.updates p hp
    | inr hp =>
      obtain ⟨q, -, rfl⟩ := hps.of_mem hp
      simp

theorem run_running {t0 : UInt64} {instruments : List InstrumentConfig} {ds : List Delivery}
    (hds : ∀ d ∈ ds, ¬ d.IsLast)
    (hrun : run Engine.deliver (Handler.init t0 instruments) ds = .ok h) : Running h := by
  refine run_induction (P := fun _ d => ¬ d.IsLast) (Q := fun _ => True) (fun _ h => Running h)
    ⟨rfl, fun p hp => by cases hp⟩ (fun _ _ _ _ hr hd _ hstep => hr.deliver hd hstep)
    (fun pre d post _ he _ => hds d (by rw [he]; simp)) (fun _ _ _ _ _ => trivial) hrun

/-- **The last message** stops the queues of the table. -/
theorem deliver_last (hd : d.IsLast) : ∃ g, deliver h d = .ok g ∧ g.shouldStop = true ∧
    g.pushed = h.pushed ++ (h.handleBefore d.tsc).stops := by
  obtain ⟨msg, hmsg, hC⟩ := hd
  cases d.effect with
  | order track op hdirectory hevent heffect => rw [hevent] at hmsg; cases hmsg
  | directory msg' hdirectory hevent hlocate heffect => rw [hevent] at hmsg; cases hmsg
  | ignored hdirectory hevent heffect => rw [hevent] at hmsg; cases hmsg
  | event msg' hdirectory hevent heffect =>
    rw [hevent] at hmsg
    cases hmsg
    rcases handleSystemEvent_eq (h.handleBefore d.tsc) msg with ⟨-, heq⟩ | ⟨hC', -⟩
    · exact ⟨_, (heffect h).trans heq, rfl, rfl⟩
    · exact absurd hC hC'

/-- A `Stop` to a queue is one of the last message, for a code that the queue is bound to. -/
theorem stopped_iff {instruments : List InstrumentConfig} {ds : List Delivery}
    (hr : Routed instruments ds h) (hrunning : Running h)
    (hpushed : h'.pushed = h.pushed ++ (h.handleBefore d.tsc).stops) (q : QueueId) :
    (∃ p ∈ h'.pushed, p.queue = q ∧ p.msg = .stop) ↔
      ∃ L cfg, firstConfig instruments L ds = some cfg ∧ cfg.queue = some q := by
  constructor
  · rintro ⟨p, hp, rfl, hmsg⟩
    rw [hpushed, List.mem_append] at hp
    cases hp with
    | inl hp => exact absurd hmsg (hrunning.updates p hp)
    | inr hp =>
      have hbound : h.locateToQueue p.locate = some p.queue := (mem_stops.mp hp).1
      exact ⟨p.locate, Option.bind_eq_some_iff.mp ((hr.queue p.locate).symm.trans hbound)⟩
  · rintro ⟨L, hL⟩
    have hbound : h.locateToQueue L = some q := (hr.queue L).trans (Option.bind_eq_some_iff.mpr hL)
    have hstops : (⟨L, q, .stop⟩ : Push) ∈ (h.handleBefore d.tsc).stops :=
      mem_stops.mpr ⟨hbound, rfl⟩
    exact ⟨⟨L, q, .stop⟩, hpushed ▸ List.mem_append_right _ hstops, rfl, rfl⟩

end Steps

/-- **When every configured queue is told to stop**: if each is the queue of an instrument that has
been announced by then. -/
theorem stop_reaches_iff {t0 : UInt64} {instruments : List InstrumentConfig} {ds post : List Delivery}
    {d : Delivery} {h : Handler}
    (hrun : run deliver (Handler.init t0 instruments) (ds ++ d :: post) = .ok h)
    (hds : ∀ d' ∈ ds, ¬ d'.IsLast) (hd : d.IsLast) :
    ∃ g g', run deliver (Handler.init t0 instruments) ds = .ok g ∧ g.shouldStop = false ∧
      deliver g d = .ok g' ∧ g'.shouldStop = true ∧
      (AllStopped instruments g' ↔ AllAnnounced instruments ds) := by
  cases hg : run deliver (Handler.init t0 instruments) ds with
  | error e =>
    rw [run_append_of_error hg] at hrun
    cases hrun
  | ok g =>
    obtain ⟨g', hstep, hstop, hpushed⟩ := @deliver_last g d hd
    have hr := run_routed hg
    have hrunning := run_running hds hg
    refine ⟨g, g', rfl, hrunning.live, hstep, hstop, ?_⟩
    constructor
    · intro hall cfg hcfg q hq
      exact (stopped_iff hr hrunning hpushed q).mp (hall cfg hcfg q hq)
    · intro hall cfg hcfg q hq
      exact (stopped_iff hr hrunning hpushed q).mpr (hall cfg hcfg q hq)

/-- One instrument, announced before the end. -/
theorem stop_reaches_sample :
    ∃ g', run deliver (Handler.init 0 [⟨[78, 86, 68, 65], some 0⟩])
      [⟨1, .stockDirectory, { (default : StockDirectory) with
          stockLocate := 9, stock := #v[78, 86, 68, 65, 32, 32, 32, 32] }⟩,
        ⟨2, .systemEvent, ⟨0, 0, 0, 67⟩⟩] = .ok g' ∧
      AllStopped [⟨[78, 86, 68, 65], some 0⟩] g' := by
  obtain ⟨h, hrun⟩ : ∃ h, run deliver (Handler.init 0 [⟨[78, 86, 68, 65], some 0⟩])
      ([⟨1, .stockDirectory, { (default : StockDirectory) with
          stockLocate := 9, stock := #v[78, 86, 68, 65, 32, 32, 32, 32] }⟩] ++
        ⟨2, .systemEvent, ⟨0, 0, 0, 67⟩⟩ :: []) = .ok h := ⟨_, rfl⟩
  have hds : ∀ d' ∈ [(⟨1, .stockDirectory, { (default : StockDirectory) with
      stockLocate := 9, stock := #v[78, 86, 68, 65, 32, 32, 32, 32] }⟩ : Delivery)], ¬ d'.IsLast := by
    rintro d' hd' ⟨msg, hmsg, -⟩
    obtain rfl := List.mem_singleton.mp hd'
    cases hmsg
  obtain ⟨g, g', hg, -, hstep, -, hiff⟩ := stop_reaches_iff hrun hds ⟨_, rfl, rfl⟩
  refine ⟨g', (run_concat hg _).trans hstep, hiff.mpr fun cfg hcfg q hq => ?_⟩
  obtain rfl := List.mem_singleton.mp hcfg
  exact ⟨9, _, rfl, hq⟩

/-- No directory message has come for the only instrument. -/
theorem not_always_stopped :
    ¬ ∀ (t0 : UInt64) (instruments : List InstrumentConfig) (ds post : List Delivery) (d : Delivery)
      (h : Handler), (∀ cfg ∈ instruments, cfg.queue ≠ none) →
      run deliver (Handler.init t0 instruments) (ds ++ d :: post) = .ok h →
      (∀ d' ∈ ds, ¬ d'.IsLast) → d.IsLast →
      ∀ g, run deliver (Handler.init t0 instruments) (ds ++ [d]) = .ok g →
        AllStopped instruments g := by
  intro hall
  obtain ⟨h, hrun, hpushed⟩ : ∃ h, run deliver (Handler.init 0 [⟨[78, 86, 68, 65], some 0⟩])
      ([] ++ ⟨2, .systemEvent, ⟨0, 0, 0, 67⟩⟩ :: []) = .ok h ∧ ∀ p ∈ h.pushed, p.queue ≠ 0 := by
    refine ⟨_, rfl, fun p hp => ?_⟩
    cases (mem_stops.mp (List.mem_append.mp hp |>.resolve_left List.not_mem_nil)).1
  obtain ⟨p, hp, hq, -⟩ := hall 0 [⟨[78, 86, 68, 65], some 0⟩] [] [] _ h (by simp) hrun (by simp)
    ⟨_, rfl, rfl⟩ h hrun _ (List.mem_singleton_self _) 0 rfl
  exact hpushed p hp hq

end ItchIngestion.Engine
