import ItchIngestion.Engine.Handler
import ItchIngestion.Library.Run

/-! # Routing

The table from locate codes to books and queues is built by the directory messages. The first one for
a locate code whose symbol is configured decides (`firstConfig`), whatever comes later, and every
push for the code goes to the queue of that configuration (`Routed`).
-/
namespace ItchIngestion.Engine
open Library ITCH OB
set_option autoImplicit false

/-! ## The deciding directory message -/

section Config
variable (instruments : List InstrumentConfig)

/-- The configuration of a symbol of eight characters. -/
def configFor (sym : List UInt8) : Option InstrumentConfig :=
  instruments.find? fun cfg => padSymbol cfg.symbol = sym

/-- The configuration that a delivery names for a locate code. -/
def directoryConfig (L : UInt16) (d : Delivery) : Option InstrumentConfig :=
  d.directory?.bind fun msg =>
    if msg.stockLocate = L then configFor instruments msg.stock.toList else none

/-- The configuration of the first configured directory message for a locate code. -/
def firstConfig (L : UInt16) (ds : List Delivery) : Option InstrumentConfig :=
  ds.findSome? (directoryConfig instruments L)

variable {instruments}

theorem configFor_cons (cfg : InstrumentConfig) (sym : List UInt8) :
    configFor (cfg :: instruments) sym =
      if padSymbol cfg.symbol = sym then some cfg else configFor instruments sym := by
  rw [configFor, List.find?_cons]
  by_cases hsym : padSymbol cfg.symbol = sym
  · simp [hsym]
  · simp [hsym, configFor]

theorem lookup_emplace (table : Instruments) (sym : List UInt8) :
    (instruments.foldl Handler.emplaceInstrument table).lookup sym =
      (table.lookup sym).or (configFor instruments sym) := by
  induction instruments generalizing table with
  | nil => exact (Option.or_none).symm
  | cons cfg instruments ih =>
    rw [List.foldl_cons, ih, configFor_cons, Handler.emplaceInstrument]
    by_cases hsym : padSymbol cfg.symbol = sym
    · rw [if_pos hsym, hsym]
      split
      · rename_i hmem
        obtain ⟨cfg', hcfg'⟩ := Option.isSome_iff_exists.mp (Finmap.lookup_isSome.mpr hmem)
        rw [hcfg', Option.some_or, Option.some_or]
      · rename_i hmem
        rw [Finmap.lookup_insert, Finmap.lookup_eq_none.mpr hmem, Option.some_or, Option.none_or]
    · rw [if_neg hsym]
      split
      · rfl
      · rw [Finmap.lookup_insert_of_ne _ (Ne.symm hsym)]

theorem lookup_init (t0 : UInt64) (sym : List UInt8) :
    (Handler.init t0 instruments).instruments.lookup sym = configFor instruments sym := by
  rw [Handler.init, lookup_emplace, Finmap.lookup_empty, Option.none_or]

theorem firstConfig_append (L : UInt16) (ds ds' : List Delivery) :
    firstConfig instruments L (ds ++ ds') =
      (firstConfig instruments L ds).or (firstConfig instruments L ds') := List.findSome?_append

theorem firstConfig_concat (L : UInt16) (ds : List Delivery) (d : Delivery) :
    firstConfig instruments L (ds ++ [d]) =
      (firstConfig instruments L ds).or (directoryConfig instruments L d) := by
  rw [firstConfig_append, firstConfig, firstConfig, List.findSome?_singleton]

end Config

/-! ## The routing table -/

/-- The table and the pushes are those of the deciding directory messages. -/
structure Routed (instruments : List InstrumentConfig) (ds : List Delivery) (h : Handler) : Prop where
  lookup : ∀ sym, h.instruments.lookup sym = configFor instruments sym
  book : ∀ L, h.locateToBook L = none ↔ firstConfig instruments L ds = none
  queue : ∀ L, h.locateToQueue L = (firstConfig instruments L ds).bind InstrumentConfig.queue
  pushed : ∀ p ∈ h.pushed, h.locateToQueue p.locate = some p.queue

theorem Announcement.of_mem {t0 : UInt64} {L : UInt16} {queue : Option QueueId}
    {change : BestLvlChange} {ps : List Push} (hps : Announcement t0 L queue change ps) {p : Push}
    (hp : p ∈ ps) : ∃ q, queue = some q ∧
      p = ⟨L, q, .bookUpdate t0 change.qty change.price change.side⟩ := by
  cases hps with
  | inl hnone =>
    rw [hnone.2] at hp
    cases hp
  | inr hsome =>
    obtain ⟨-, q, hq, rfl⟩ := hsome
    exact ⟨q, hq, List.mem_singleton.mp hp⟩

section Routed
variable {instruments : List InstrumentConfig} {ds : List Delivery} {h h' : Handler} {d : Delivery}

theorem init_routed (t0 : UInt64) : Routed instruments [] (Handler.init t0 instruments) where
  lookup := lookup_init t0
  book _ := iff_of_true rfl rfl
  queue _ := rfl
  pushed p hp := by cases hp

theorem Routed.unchanged (hr : Routed instruments ds h)
    (hd : ∀ L, firstConfig instruments L (ds ++ [d]) = firstConfig instruments L ds)
    {ps : List Push} (hlookup : h'.instruments = h.instruments)
    (hbook : h'.locateToBook = h.locateToBook) (hqueue : h'.locateToQueue = h.locateToQueue)
    (hpushed : h'.pushed = h.pushed ++ ps)
    (hps : ∀ p ∈ ps, h.locateToQueue p.locate = some p.queue) :
    Routed instruments (ds ++ [d]) h' where
  lookup := hlookup ▸ hr.lookup
  book L := by
    rw [hd L, hbook]
    exact hr.book L
  queue L := by
    rw [hd L, hqueue]
    exact hr.queue L
  pushed p hp := by
    rw [hpushed, List.mem_append] at hp
    rw [hqueue]
    exact hp.elim (hr.pushed p) (hps p)

theorem Routed.bind (hr : Routed instruments ds h) {L : UInt16} {cfg : InstrumentConfig} {i : ℕ}
    (hfree : h.locateToBook L = none) (hcfg : directoryConfig instruments L d = some cfg)
    (hd : ∀ L', L' ≠ L → directoryConfig instruments L' d = none)
    (hlookup : h'.instruments = h.instruments)
    (hbook : h'.locateToBook = Function.update h.locateToBook L (some i))
    (hqueue : h'.locateToQueue = Function.update h.locateToQueue L cfg.queue)
    (hpushed : h'.pushed = h.pushed) : Routed instruments (ds ++ [d]) h' := by
  have hnone := (hr.book L).mp hfree
  have hself : firstConfig instruments L (ds ++ [d]) = some cfg := by
    rw [firstConfig_concat, hnone, hcfg, Option.none_or]
  have hother : ∀ L', L' ≠ L →
      firstConfig instruments L' (ds ++ [d]) = firstConfig instruments L' ds := by
    intro L' hL'
    rw [firstConfig_concat, hd L' hL', Option.or_none]
  refine ⟨hlookup ▸ hr.lookup, fun L' => ?_, fun L' => ?_, fun p hp => ?_⟩
  · rw [hbook]
    by_cases hL : L' = L
    · rw [hL, Function.update_self, hself]
      exact iff_of_false (by simp) (by simp)
    · rw [Function.update_of_ne hL, hother L' hL]
      exact hr.book L'
  · rw [hqueue]
    by_cases hL : L' = L
    · rw [hL, Function.update_self, hself, Option.bind_some]
    · rw [Function.update_of_ne hL, hother L' hL]
      exact hr.queue L'
  · rw [hpushed] at hp
    have hold := hr.pushed p hp
    have hne : p.locate ≠ L := by
      rintro hL
      rw [hL, hr.queue L, hnone] at hold
      cases hold
    rw [hqueue, Function.update_of_ne hne]
    exact hold

/-- **Every message keeps the routing.** -/
theorem Routed.deliver (hr : Routed instruments ds h) (hrun : deliver h d = .ok h') :
    Routed instruments (ds ++ [d]) h' := by
  have hquiet : d.directory? = none → ∀ L,
      firstConfig instruments L (ds ++ [d]) = firstConfig instruments L ds := by
    intro hno L
    rw [firstConfig_concat, directoryConfig, hno, Option.bind_none, Option.or_none]
  cases deliver_cases hrun with
  | quiet recordPrices hlast hdirectory heq =>
    subst heq
    refine hr.unchanged (fun L => ?_) rfl rfl rfl (List.append_nil _).symm (by simp)
    cases hmsg : d.directory? with
    | none => exact hquiet hmsg L
    | some msg =>
      rw [firstConfig_concat, directoryConfig, hmsg, Option.bind_some]
      split
      · rename_i hL
        cases hdirectory msg hmsg with
        | inl hnone => rw [← hr.lookup, hnone, Option.or_none]
        | inr hbound =>
          rw [hL] at hbound
          obtain ⟨cfg, hcfg⟩ := Option.ne_none_iff_exists'.mp (mt (hr.book L).mpr hbound)
          rw [hcfg, Option.some_or]
      · exact Option.or_none
  | last hlast hdirectory heq =>
    subst heq
    exact hr.unchanged (hquiet hdirectory) rfl rfl rfl rfl fun p hp => (mem_stops.mp hp).1
  | bound msg cfg hlast hdirectory hlocate hcfg hfree heq =>
    subst heq
    have hconfig : ∀ L, directoryConfig instruments L d =
        if d.stockLocate = L then some cfg else none := by
      intro L
      rw [directoryConfig, hdirectory, Option.bind_some, hlocate, ← hr.lookup, hcfg]
    refine @Routed.bind instruments ds h _ d hr d.stockLocate cfg _ hfree ?_ (fun L hL => ?_)
      rfl rfl rfl rfl
    · rw [hconfig, if_pos rfl]
    · rw [hconfig, if_neg (Ne.symm hL)]
  | traded maxOrders op i book book' change ps hlast hdirectory hbound hbook happly hps heq =>
    subst heq
    refine hr.unchanged (hquiet hdirectory) rfl rfl rfl rfl fun p hp => ?_
    obtain ⟨q, hqueue, rfl⟩ := hps.of_mem hp
    exact hqueue

theorem run_routed {t0 : UInt64} (hrun : run Engine.deliver (Handler.init t0 instruments) ds = .ok h) :
    Routed instruments ds h := by
  refine run_induction (P := fun _ _ => True) (Q := fun _ => True) (Routed instruments)
    (init_routed t0) (fun ds t d u hr _ _ hstep => hr.deliver hstep) (fun _ _ _ _ _ _ => trivial)
    (fun _ _ _ _ _ => trivial) hrun

/-- **A bound code keeps its book and its queue.** -/
theorem deliver_keeps {L : UInt16} {i : ℕ} (hbound : h.locateToBook L = some i)
    (hrun : Engine.deliver h d = .ok h') :
    h'.locateToBook L = some i ∧ h'.locateToQueue L = h.locateToQueue L := by
  cases deliver_cases hrun with
  | quiet recordPrices hlast hdirectory heq =>
    subst heq
    exact ⟨hbound, rfl⟩
  | last hlast hdirectory heq =>
    subst heq
    exact ⟨hbound, rfl⟩
  | traded maxOrders op j book book' change ps hlast hdirectory hbound' hbook happly hps heq =>
    subst heq
    exact ⟨hbound, rfl⟩
  | bound msg cfg hlast hdirectory hlocate hcfg hfree heq =>
    subst heq
    have hne : L ≠ d.stockLocate := by
      rintro rfl
      rw [hfree] at hbound
      cases hbound
    exact ⟨(Function.update_of_ne hne _ _).trans hbound, Function.update_of_ne hne _ _⟩

theorem run_keeps {L : UInt16} {i : ℕ} (hbound : h.locateToBook L = some i)
    (hrun : run Engine.deliver h ds = .ok h') :
    h'.locateToBook L = some i ∧ h'.locateToQueue L = h.locateToQueue L := by
  refine run_invariant
    (fun g => g.locateToBook L = some i ∧ g.locateToQueue L = h.locateToQueue L) ⟨hbound, rfl⟩
    (fun g d g' hg hstep => ?_) hrun
  obtain ⟨hbook, hqueue⟩ := deliver_keeps hg.1 hstep
  exact ⟨hbook, hqueue.trans hg.2⟩

end Routed

end ItchIngestion.Engine
