import ItchIngestion.Engine.Routing
import ItchIngestion.Engine.TopOfBook
import ItchIngestion.Library.Unwinding

/-! # Instruments do not interfere

`View` is what belongs to a locate code: its binding, the contents of its book and the updates pushed
for it, without their time stamps. A message for another code leaves all that alone (`view_other`),
and a message for the code itself does the same to it in all states where it looks the same
(`view_alike`). So the view after a run is the view after the messages for the code alone.
-/
namespace ItchIngestion.Engine
open Library ITCH OB
set_option autoImplicit false

/-! ## What belongs to a locate code -/

/-- What a strategy learns from an update, the time apart. -/
structure Update where
  queue : QueueId
  qty : UInt64
  price : UInt32
  side : Side

/-- The update that a push brings for a locate code, without its time stamp. -/
def Push.told (L : UInt16) (p : Push) : Option Update :=
  match p.msg with
  | .bookUpdate _ qty price side => if p.locate = L then some ⟨p.queue, qty, price, side⟩ else none
  | .stop => none

/-- What there is of one locate code in the handler. -/
structure View where
  bound : Bool
  book : Option Book
  queue : Option QueueId
  updates : List Update

def Handler.view (L : UInt16) (h : Handler) : View where
  bound := (h.locateToBook L).isSome
  book := (h.locateToBook L).bind fun i => h.books[i]?
  queue := h.locateToQueue L
  updates := h.pushed.filterMap (Push.told L)

section Told
variable {h : Handler} {L : UInt16} {ps : List Push}

theorem told_stops : h.stops.filterMap (Push.told L) = [] := by
  refine List.filterMap_eq_nil_iff.mpr fun p hp => ?_
  rw [Push.told, (mem_stops.mp hp).2]

theorem Announcement.told_other {t0 : UInt64} {L' : UInt16} {queue : Option QueueId}
    {change : BestLvlChange} (hps : Announcement t0 L' queue change ps) (hne : L' ≠ L) :
    ps.filterMap (Push.told L) = [] := by
  refine List.filterMap_eq_nil_iff.mpr fun p hp => ?_
  obtain ⟨q, -, rfl⟩ := hps.of_mem hp
  exact if_neg hne

/-- The time stamp is the only thing that two announcements of a change can differ in. -/
theorem Announcement.restamp {t0 : UInt64} {queue : Option QueueId} {change : BestLvlChange}
    (hps : Announcement t0 L queue change ps) (t1 : UInt64) :
    ∃ ps', Announcement t1 L queue change ps' ∧
      ps'.filterMap (Push.told L) = ps.filterMap (Push.told L) := by
  cases hps with
  | inl hnone => exact ⟨[], Or.inl ⟨hnone.1, rfl⟩, by rw [hnone.2]⟩
  | inr hsome =>
    obtain ⟨hside, q, hq, rfl⟩ := hsome
    refine ⟨_, Or.inr ⟨hside, q, hq, rfl⟩, ?_⟩
    simp [Push.told]

end Told

/-! ## Messages for other codes -/

section Other
variable {h h' : Handler} {L : UInt16}

theorem view_congr (hbooks : ∀ i, h.locateToBook L = some i → h'.books[i]? = h.books[i]?)
    (hbook : h'.locateToBook L = h.locateToBook L) (hqueue : h'.locateToQueue L = h.locateToQueue L)
    {ps : List Push} (hpushed : h'.pushed = h.pushed ++ ps) (hps : ps.filterMap (Push.told L) = []) :
    h'.view L = h.view L := by
  have hcontents : (h.locateToBook L).bind (fun i => h'.books[i]?) =
      (h.locateToBook L).bind fun i => h.books[i]? := by
    cases hL : h.locateToBook L with
    | none => rfl
    | some i => exact hbooks i hL
  rw [Handler.view, Handler.view, hbook, hqueue, hpushed, List.filterMap_append, hps,
    List.append_nil, hcontents]

/-- **A message for another code** does not change what belongs to this one. -/
theorem view_other (hcur : Current h) {d : Delivery} (hother : d.stockLocate ≠ L)
    (hrun : deliver h d = .ok h') : h'.view L = h.view L := by
  cases deliver_cases hrun with
  | quiet recordPrices hlast hdirectory heq =>
    subst heq
    rfl
  | last hlast hdirectory heq =>
    subst heq
    exact view_congr (fun _ _ => rfl) rfl rfl rfl told_stops
  | bound msg cfg hlast hdirectory hlocate hcfg hfree heq =>
    subst heq
    refine view_congr (fun j hj => ?_) (Function.update_of_ne hother.symm _ _)
      (Function.update_of_ne hother.symm _ _) (List.append_nil _).symm rfl
    exact List.getElem?_append_left (hcur.lt_length hj)
  | traded maxOrders op i book book' change ps hlast hdirectory hbound hbook happly hps heq =>
    subst heq
    refine view_congr (fun j hj => ?_) rfl rfl rfl (hps.told_other hother)
    have hij : i ≠ j := fun e => hother (hcur.distinct _ L i hbound (e ▸ hj))
    exact List.getElem?_set_ne hij

end Other

/-! ## Messages for the code itself -/

section Alike
variable {g h h' : Handler} {L : UInt16}

theorem view_eq_iff : h.view L = g.view L ↔
    (h.locateToBook L).isSome = (g.locateToBook L).isSome ∧
      ((h.locateToBook L).bind fun i => h.books[i]?) =
        ((g.locateToBook L).bind fun i => g.books[i]?) ∧
      h.locateToQueue L = g.locateToQueue L ∧
      h.pushed.filterMap (Push.told L) = g.pushed.filterMap (Push.told L) := by
  rw [Handler.view, Handler.view, View.mk.injEq]

/-- The code is bound in both states, to a book of the same contents. -/
theorem bound_alike (hview : h.view L = g.view L) {i : ℕ} {book : Book}
    (hbound : h.locateToBook L = some i) (hbook : h.books[i]? = some book) :
    ∃ j, g.locateToBook L = some j ∧ g.books[j]? = some book := by
  obtain ⟨hsome, hcontents, -, -⟩ := view_eq_iff.mp hview
  rw [hbound, Option.isSome_some] at hsome
  obtain ⟨j, hj⟩ := Option.isSome_iff_exists.mp hsome.symm
  rw [hbound, hj, Option.bind_some, Option.bind_some, hbook] at hcontents
  exact ⟨j, hj, hcontents.symm⟩

theorem free_alike (hview : h.view L = g.view L) (hfree : h.locateToBook L = none) :
    g.locateToBook L = none := by
  have hsome := (view_eq_iff.mp hview).1
  rw [hfree, Option.isSome_none] at hsome
  exact Option.not_isSome_iff_eq_none.mp (by rw [← hsome]; decide)

theorem handleOrder_alike (hview : h.view L = g.view L) {track : Bool} {op : Op}
    (hrun : h.handleOrder track L op = .ok h') :
    ∃ g', g.handleOrder track L op = .ok g' ∧ h'.view L = g'.view L := by
  rcases handleOrder_eq_ok.mp hrun with
    ⟨hfree, rfl⟩ | ⟨i, book, book', change, ps, hbound, hbook, happly, hps, rfl⟩
  · exact ⟨g, handleOrder_eq_ok.mpr (Or.inl ⟨free_alike hview hfree, rfl⟩), hview⟩
  · obtain ⟨j, hbound', hbook'⟩ := bound_alike hview hbound hbook
    obtain ⟨-, -, hqueue, hupdates⟩ := view_eq_iff.mp hview
    obtain ⟨ps', hps', htold⟩ := hps.restamp g.t0
    rw [hqueue] at hps'
    refine ⟨_, handleOrder_eq_ok.mpr (Or.inr ⟨j, book, book', change, ps', hbound', hbook', happly,
      hps', rfl⟩), view_eq_iff.mpr ⟨?_, ?_, hqueue, ?_⟩⟩
    · dsimp only
      rw [hbound, hbound']
      rfl
    · dsimp only
      rw [hbound, hbound', Option.bind_some, Option.bind_some,
        List.getElem?_set_self (List.getElem?_eq_some_iff.mp hbook).1,
        List.getElem?_set_self (List.getElem?_eq_some_iff.mp hbook').1]
    · dsimp only
      rw [List.filterMap_append, List.filterMap_append, hupdates, htold]

theorem handleStockDirectory_alike {msg : StockDirectory} (hlocate : msg.stockLocate = L)
    (hlookup : ∀ sym, h.instruments.lookup sym = g.instruments.lookup sym)
    (hview : h.view L = g.view L) (hrun : h.handleStockDirectory msg = .ok h') :
    ∃ g', g.handleStockDirectory msg = .ok g' ∧ h'.view L = g'.view L := by
  subst hlocate
  rcases handleStockDirectory_eq_ok.mp hrun with ⟨hquiet, rfl⟩ | ⟨cfg, hcfg, hfree, rfl⟩
  · refine ⟨g, handleStockDirectory_eq_ok.mpr (Or.inl ⟨?_, rfl⟩), hview⟩
    cases hquiet with
    | inl hnone => exact Or.inl ((hlookup _).symm.trans hnone)
    | inr hbound => exact Or.inr fun hfree => hbound (free_alike hview.symm hfree)
  · refine ⟨_, handleStockDirectory_eq_ok.mpr (Or.inr ⟨cfg, (hlookup _).symm.trans hcfg,
      free_alike hview hfree, rfl⟩), view_eq_iff.mpr ⟨?_, ?_, ?_, (view_eq_iff.mp hview).2.2.2⟩⟩
    · simp
    · simp
    · simp

theorem handleSystemEvent_alike {msg : SystemEvent} (hview : h.view L = g.view L)
    (hrun : h.handleSystemEvent msg = .ok h') :
    ∃ g', g.handleSystemEvent msg = .ok g' ∧ h'.view L = g'.view L := by
  rcases handleSystemEvent_eq h msg with ⟨hC, heq⟩ | ⟨hC, b, heq⟩ <;>
    rcases handleSystemEvent_eq g msg with ⟨hC', heq'⟩ | ⟨hC', b', heq'⟩
  · rw [heq] at hrun
    cases hrun
    refine ⟨_, heq', ?_⟩
    have hh := @view_congr h { h with lastMessage := true, pushed := h.pushed ++ h.stops } L
      (fun _ _ => rfl) rfl rfl _ rfl told_stops
    have hg := @view_congr g { g with lastMessage := true, pushed := g.pushed ++ g.stops } L
      (fun _ _ => rfl) rfl rfl _ rfl told_stops
    rw [hh, hg, hview]
  · exact absurd hC hC'
  · exact absurd hC' hC
  · rw [heq] at hrun
    cases hrun
    exact ⟨_, heq', hview⟩

/-- **A message for the code** does the same to what belongs to it in all states that look alike. -/
theorem view_alike (hlookup : ∀ sym, h.instruments.lookup sym = g.instruments.lookup sym)
    (hview : h.view L = g.view L) {d : Delivery} (hown : d.stockLocate = L)
    (hrun : deliver h d = .ok h') : ∃ g', deliver g d = .ok g' ∧ h'.view L = g'.view L := by
  have hbefore : (h.handleBefore d.tsc).view L = (g.handleBefore d.tsc).view L := hview
  subst hown
  cases d.effect with
  | order track op hdirectory hevent heffect =>
    rw [heffect] at hrun ⊢
    exact handleOrder_alike hbefore hrun
  | directory msg hdirectory hevent hlocate heffect =>
    rw [heffect] at hrun ⊢
    have hlookup' : ∀ sym, (h.handleBefore d.tsc).instruments.lookup sym =
        (g.handleBefore d.tsc).instruments.lookup sym := hlookup
    exact handleStockDirectory_alike hlocate hlookup' hbefore hrun
  | event msg hdirectory hevent heffect =>
    rw [heffect] at hrun ⊢
    exact handleSystemEvent_alike hbefore hrun
  | ignored hdirectory hevent heffect =>
    rw [heffect] at hrun ⊢
    cases hrun
    exact ⟨_, rfl, hbefore⟩

end Alike

/-! ## Runs -/

theorem deliver_instruments {h h' : Handler} {d : Delivery} (hrun : deliver h d = .ok h') :
    h'.instruments = h.instruments := by
  cases deliver_cases hrun with
  | quiet _ _ _ heq => rw [heq]
  | last _ _ heq => rw [heq]
  | bound _ _ _ _ _ _ _ heq => rw [heq]
  | traded _ _ _ _ _ _ _ _ _ _ _ _ _ heq => rw [heq]

/-- The states of a handler with a given table of instruments. -/
def Sound (instruments : Instruments) (h : Handler) : Prop :=
  Current h ∧ h.instruments = instruments

theorem unwinds (instruments : Instruments) (L : UInt16) :
    Unwinds deliver (Sound instruments) (Handler.view L) fun d => d.stockLocate = L where
  inv _ _ _ hs hrun := ⟨hs.1.deliver hrun, (deliver_instruments hrun).trans hs.2⟩
  silent _ _ _ hs hother hrun := view_other hs.1 (of_decide_eq_false hother) hrun
  alike h g _ _ hs hs' hview hown hrun := by
    have hlookup : ∀ sym, h.instruments.lookup sym = g.instruments.lookup sym := by
      intro sym
      rw [hs.2, hs'.2]
    exact view_alike hlookup hview (of_decide_eq_true hown) hrun

/-- **Instruments do not interfere.** The view of a locate code is that of its own messages; a bound
code keeps its book, which no other code has, and its queue; and what is pushed for a code goes to
the queue of the first configured directory message for it. -/
theorem instruments_isolated {t0 : UInt64} {instruments : List InstrumentConfig}
    {ds : List Delivery} {h : Handler}
    (hrun : run deliver (Handler.init t0 instruments) ds = .ok h) (L : UInt16) :
    (∃ g, run deliver (Handler.init t0 instruments) (ds.filter fun d => d.stockLocate = L) = .ok g ∧
      h.view L = g.view L) ∧
    (∀ pre post g i, ds = pre ++ post → run deliver (Handler.init t0 instruments) pre = .ok g →
      g.locateToBook L = some i →
      h.locateToBook L = some i ∧ h.locateToQueue L = g.locateToQueue L) ∧
    (∀ L' i, h.locateToBook L = some i → h.locateToBook L' = some i → L' = L) ∧
    ∀ p ∈ h.pushed, p.locate = L →
      ∃ cfg, firstConfig instruments L ds = some cfg ∧ cfg.queue = some p.queue := by
  have hinit : Sound (Handler.init t0 instruments).instruments (Handler.init t0 instruments) :=
    ⟨init_current t0 instruments, rfl⟩
  refine ⟨(unwinds _ L).run_filter hinit hinit rfl hrun, ?_, fun L' i hL hL' => ?_, ?_⟩
  · rintro pre post g i rfl hpre hbound
    rw [run_append_of_ok hpre] at hrun
    exact run_keeps hbound hrun
  · exact (run_current hrun).distinct L' L i hL' hL
  · rintro p hp rfl
    have hr := run_routed hrun
    exact Option.bind_eq_some_iff.mp ((hr.queue p.locate).symm.trans (hr.pushed p hp))

/-- Two instruments whose messages alternate, with the codes 7 and 9. -/
theorem instruments_isolated_sample :
    ∃ h g : Handler,
      run deliver (Handler.init 0 [⟨[78, 86, 68, 65], some 0⟩, ⟨[65, 65, 80, 76], some 1⟩])
        [⟨1, .stockDirectory, { (default : StockDirectory) with
            stockLocate := 9, stock := #v[78, 86, 68, 65, 32, 32, 32, 32] }⟩,
          ⟨2, .stockDirectory, { (default : StockDirectory) with
            stockLocate := 7, stock := #v[65, 65, 80, 76, 32, 32, 32, 32] }⟩,
          ⟨3, .addOrderNoMpid, ⟨9, 0, 0, 1, 66, 100, default, 10⟩⟩,
          ⟨4, .addOrderNoMpid, ⟨7, 0, 0, 1, 83, 40, default, 11⟩⟩] = .ok h ∧
      run deliver (Handler.init 0 [⟨[78, 86, 68, 65], some 0⟩, ⟨[65, 65, 80, 76], some 1⟩])
        [⟨2, .stockDirectory, { (default : StockDirectory) with
            stockLocate := 7, stock := #v[65, 65, 80, 76, 32, 32, 32, 32] }⟩,
          ⟨4, .addOrderNoMpid, ⟨7, 0, 0, 1, 83, 40, default, 11⟩⟩] = .ok g ∧
      h.view 7 = g.view 7 ∧ (h.view 7).bound = true := by
  obtain ⟨h, hrun, hbound⟩ : ∃ h : Handler,
      run deliver (Handler.init 0 [⟨[78, 86, 68, 65], some 0⟩, ⟨[65, 65, 80, 76], some 1⟩])
        [⟨1, .stockDirectory, { (default : StockDirectory) with
            stockLocate := 9, stock := #v[78, 86, 68, 65, 32, 32, 32, 32] }⟩,
          ⟨2, .stockDirectory, { (default : StockDirectory) with
            stockLocate := 7, stock := #v[65, 65, 80, 76, 32, 32, 32, 32] }⟩,
          ⟨3, .addOrderNoMpid, ⟨9, 0, 0, 1, 66, 100, default, 10⟩⟩,
          ⟨4, .addOrderNoMpid, ⟨7, 0, 0, 1, 83, 40, default, 11⟩⟩] = .ok h ∧
      (h.view 7).bound = true := ⟨_, rfl, rfl⟩
  obtain ⟨⟨g, hrun', hview⟩, -⟩ := instruments_isolated hrun 7
  exact ⟨h, g, hrun, hrun', hview, hbound⟩

end ItchIngestion.Engine
