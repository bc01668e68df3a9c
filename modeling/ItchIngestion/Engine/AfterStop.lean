import ItchIngestion.Book.Front
import ItchIngestion.Engine.Session
import ItchIngestion.Engine.TopOfBook

/-! # After the end of messages

The consumer of a queue leaves at the first `Stop`, but the loop asks for `should_stop` between two
bursts only: the rest of the burst behind the end event is parsed and handled, and an order in it that
works at the front of its book is still pushed. The handler pushes `Stop` once for a locate code, so two
codes of a queue get it twice, and so does a second end event. Otherwise nothing follows
(`nothing_follows_iff`).
-/
namespace ItchIngestion.Engine
open Library ITCH OB
set_option autoImplicit false

/-! ## The pushes of a message -/

/-- The operation that an order message is for the book of its code. -/
def Delivery.op? : Delivery → Option Op
  | ⟨_, .addOrderNoMpid, msg⟩ =>
    some (.addOrder msg.orderReferenceNumber ⟨msg.buySell⟩ msg.shares msg.price)
  | ⟨_, .addOrderMpid, msg⟩ =>
    some (.addOrder msg.orderReferenceNumber ⟨msg.buySell⟩ msg.shares msg.price)
  | ⟨_, .orderExecuted, msg⟩ => some (.executeOrder msg.orderReferenceNumber msg.executedShares)
  | ⟨_, .orderExecutedPrice, msg⟩ => some (.executeOrder msg.orderReferenceNumber msg.executedShares)
  | ⟨_, .orderCancel, msg⟩ => some (.cancelOrder msg.orderReferenceNumber msg.cancelledShares)
  | ⟨_, .orderDelete, msg⟩ => some (.deleteOrder msg.orderReferenceNumber)
  | ⟨_, .orderReplace, msg⟩ =>
    some (.replaceOrder msg.orderReferenceNumber msg.newReferenceNumber msg.shares msg.price)
  | _ => none

/-- An order message whose operation works at the front of the book of its code. -/
def AtFront (h : Handler) (d : Delivery) : Prop :=
  ∃ op i book, d.op? = some op ∧ h.locateToBook d.stockLocate = some i ∧ h.books[i]? = some book ∧
    book.AtFront op

/-- The messages that a handled delivery pushes: an order at the front of its book one update, an end
event its stops, and any other nothing. -/
inductive Pushes (h : Handler) (d : Delivery) (ps : List Push) : Prop
  | nothing (hlast : ¬ d.IsLast) (hquiet : ¬ AtFront h d) (heq : ps = [])
  | update (p : Push) (hlast : ¬ d.IsLast) (hfront : AtFront h d)
      (hlocate : p.locate = d.stockLocate) (hqueue : h.locateToQueue d.stockLocate = some p.queue)
      (hmsg : p.msg ≠ .stop) (heq : ps = [p])
  | stops (hlast : d.IsLast) (hquiet : ¬ AtFront h d) (heq : ps = h.stops)

section Pushes
variable {h h' : Handler} {d : Delivery} {ps : List Push} {q : QueueId}

theorem Delivery.order_or_not (d : Delivery) :
    (∃ op track, d.op? = some op ∧ ¬ d.IsLast ∧
      ∀ h, deliver h d = (h.handleBefore d.tsc).handleOrder track d.stockLocate op) ∨
    (d.op? = none ∧ ∀ h h', deliver h d = .ok h' →
      (d.IsLast ∧ h'.pushed = h.pushed ++ h.stops) ∨ (¬ d.IsLast ∧ h'.pushed = h.pushed)) := by
  obtain ⟨tsc, ty, msg⟩ := d
  cases ty with
  | systemEvent =>
    refine Or.inr ⟨rfl, fun h h' hrun => ?_⟩
    change (h.handleBefore tsc).handleSystemEvent msg = .ok h' at hrun
    rcases handleSystemEvent_eq (h.handleBefore tsc) msg with ⟨hC, heq⟩ | ⟨hC, b, heq⟩
    · rw [heq] at hrun
      cases hrun
      exact Or.inl ⟨⟨msg, rfl, hC⟩, rfl⟩
    · rw [heq] at hrun
      cases hrun
      refine Or.inr ⟨?_, rfl⟩
      rintro ⟨msg', hmsg, hC'⟩
      cases hmsg
      exact hC hC'
  | stockDirectory =>
    refine Or.inr ⟨rfl, fun h h' hrun => Or.inr ⟨not_isLast rfl, ?_⟩⟩
    rcases handleStockDirectory_eq_ok.mp hrun with ⟨-, rfl⟩ | ⟨cfg, -, -, rfl⟩ <;> rfl
  | addOrderNoMpid | addOrderMpid => exact Or.inl ⟨_, true, rfl, not_isLast rfl, fun _ => rfl⟩
  | orderExecuted | orderExecutedPrice | orderCancel | orderDelete | orderReplace =>
    exact Or.inl ⟨_, false, rfl, not_isLast rfl, fun _ => rfl⟩
  | tradingAction | regSho | marketParticipantPos | mwcbDeclineLevel | mwcbStatus
  | ipoQuotationPeriodUpd | luldAuctionCollar | operationalHalt | tradeMessageNonCross
  | tradeMessageCross | brokenTrade | noii | directListingCapitalRaise =>
    refine Or.inr ⟨rfl, fun h h' hrun => Or.inr ⟨not_isLast rfl, ?_⟩⟩
    cases hrun
    rfl

/-- **What a message pushes.** -/
theorem deliver_pushes (hcur : Current h) (hrun : deliver h d = .ok h') :
    ∃ ps, h'.pushed = h.pushed ++ ps ∧ Pushes h d ps := by
  rcases d.order_or_not with ⟨op, track, hop, hlast, heffect⟩ | ⟨hop, heffect⟩
  · rw [heffect] at hrun
    rcases handleOrder_eq_ok.mp hrun with
      ⟨hfree, rfl⟩ | ⟨i, book, book', change, ps, hbound, hbook, happly, hps, rfl⟩
    · refine ⟨[], (List.append_nil _).symm, .nothing hlast ?_ rfl⟩
      rintro ⟨op', i, book, -, hbound, -⟩
      exact absurd (hfree.symm.trans hbound) (by simp)
    · obtain ⟨book₁, hbook₁, hwf, -⟩ := hcur.bound _ _ hbound
      obtain rfl : book = book₁ := Option.some.inj (hbook.symm.trans hbook₁)
      have hiff := OrderBook.announced_iff hwf happly
      refine ⟨ps, rfl, ?_⟩
      rcases hps with ⟨hside, rfl⟩ | ⟨hside, q, hq, rfl⟩
      · refine .nothing hlast ?_ rfl
        rintro ⟨op', j, book₂, hop', hbound', hbook', hfront⟩
        cases hop.symm.trans hop'
        cases hbound.symm.trans hbound'
        cases hbook.symm.trans hbook'
        exact hiff.mpr hfront hside
      · exact .update ⟨d.stockLocate, q, .bookUpdate d.tsc change.qty change.price change.side⟩ hlast
          ⟨op, i, book, hop, hbound, hbook, hiff.mp hside⟩ rfl hq (by simp) rfl
  · have hquiet : ¬ AtFront h d := by
      rintro ⟨op, i, book, hop', -⟩
      rw [hop] at hop'
      cases hop'
    rcases heffect h h' hrun with ⟨hlast, heq⟩ | ⟨hlast, heq⟩
    · exact ⟨h.stops, heq, .stops hlast hquiet rfl⟩
    · exact ⟨[], by rw [heq, List.append_nil], .nothing hlast hquiet rfl⟩

end Pushes

/-! ## Routes -/

section Routes
variable (instruments : List InstrumentConfig)

/-- The code is routed to the queue. -/
def Routes (ds : List Delivery) (L : UInt16) (q : QueueId) : Prop :=
  (firstConfig instruments L ds).bind InstrumentConfig.queue = some q

/-- An end event has come when a code was routed to the queue. -/
def Ended (ds : List Delivery) (q : QueueId) : Prop :=
  ∃ pre d post L, ds = pre ++ d :: post ∧ d.IsLast ∧ Routes instruments pre L q

variable {instruments} {ds : List Delivery} {d : Delivery} {h h' : Handler} {q : QueueId}
  {ps : List Push}

theorem Routes.append {L : UInt16} (h : Routes instruments ds L q) (ds' : List Delivery) :
    Routes instruments (ds ++ ds') L q := by
  obtain ⟨cfg, hcfg, hq⟩ := Option.bind_eq_some_iff.mp h
  refine Option.bind_eq_some_iff.mpr ⟨cfg, ?_, hq⟩
  rw [firstConfig_append, hcfg, Option.some_or]

theorem Routes.announced {L : UInt16} (h : Routes instruments ds L q) :
    ∃ d ∈ ds, ∃ msg, d.directory? = some msg ∧ msg.stockLocate = L := by
  obtain ⟨cfg, hcfg, -⟩ := Option.bind_eq_some_iff.mp h
  obtain ⟨d, hd, hconfig⟩ := List.exists_of_findSome?_eq_some hcfg
  obtain ⟨msg, hmsg, hif⟩ := Option.bind_eq_some_iff.mp hconfig
  refine ⟨d, hd, msg, hmsg, ?_⟩
  by_contra hne
  rw [if_neg hne] at hif
  cases hif

theorem Ended.routes (h : Ended instruments ds q) : ∃ L, Routes instruments ds L q := by
  obtain ⟨pre, d, post, L, rfl, -, hroute⟩ := h
  exact ⟨L, hroute.append _⟩

theorem ended_concat : Ended instruments (ds ++ [d]) q ↔
    Ended instruments ds q ∨ (d.IsLast ∧ ∃ L, Routes instruments ds L q) := by
  constructor
  · rintro ⟨pre, d', post, L, heq, hlast, hroute⟩
    rcases split_concat_cons heq with ⟨rfl, rfl, -⟩ | ⟨post, -, heq⟩
    · exact Or.inr ⟨hlast, L, hroute⟩
    · exact Or.inl ⟨pre, d', post, L, heq, hlast, hroute⟩
  · rintro (⟨pre, d', post, L, rfl, hlast, hroute⟩ | ⟨hlast, L, hroute⟩)
    · exact ⟨pre, d', post ++ [d], L, by simp, hlast, hroute⟩
    · exact ⟨ds, d, [], L, rfl, hlast, hroute⟩

theorem Routed.routes_iff (hr : Routed instruments ds h) (L : UInt16) (q : QueueId) :
    h.locateToQueue L = some q ↔ Routes instruments ds L q := by
  rw [hr.queue L]
  rfl

theorem run_stopped {t0 : UInt64} (hrun : run deliver (Handler.init t0 instruments) ds = .ok h) :
    (∃ p ∈ h.pushed, p.queue = q ∧ p.msg = .stop) ↔ Ended instruments ds q := by
  induction ds using List.reverseRecOn generalizing h with
  | nil =>
    cases hrun
    refine iff_of_false ?_ ?_
    · rintro ⟨p, hp, -⟩
      cases hp
    · rintro ⟨pre, d, post, L, heq, -⟩
      simp at heq
  | append_singleton ds d ih =>
    obtain ⟨g, hg, hstep⟩ := run_concat_ok hrun
    obtain ⟨ps, hpushed, hps⟩ := deliver_pushes (run_current hg) hstep
    have hnew : (∃ p ∈ ps, p.queue = q ∧ p.msg = .stop) ↔
        d.IsLast ∧ ∃ L, Routes instruments ds L q := by
      cases hps with
      | nothing hlast _ heq =>
        subst heq
        exact iff_of_false (by simp) fun h => hlast h.1
      | update p hlast _ _ _ hmsg heq =>
        subst heq
        exact iff_of_false (by simp [hmsg]) fun h => hlast h.1
      | stops hlast _ heq =>
        rw [heq]
        constructor
        · rintro ⟨p, hp, rfl, -⟩
          exact ⟨hlast, p.locate, ((run_routed hg).routes_iff _ _).mp (mem_stops.mp hp).1⟩
        · rintro ⟨-, L, hL⟩
          exact ⟨⟨L, q, .stop⟩, mem_stops.mpr ⟨((run_routed hg).routes_iff L q).mpr hL, rfl⟩, rfl, rfl⟩
    rw [ended_concat, ← ih hg, ← hnew, hpushed]
    simp only [List.mem_append, or_and_right, exists_or]

end Routes

/-! ## Behind a stop -/

/-- No push to the queue comes behind a `Stop` to it. -/
def NothingFollows (q : QueueId) (pushed : List Push) : Prop :=
  pushed.Pairwise fun p p' => p.queue = q → p.msg = .stop → p'.queue ≠ q

/-- A message that comes in the state `h`, after `ds`: an end event finds one code for the queue at the
most and is the first to do so, and behind it no order of such a code works at the front of its book. -/
structure Heeds (instruments : List InstrumentConfig) (q : QueueId) (ds : List Delivery)
    (d : Delivery) (h : Handler) : Prop where
  alone : d.IsLast → ∀ L L', Routes instruments ds L q → Routes instruments ds L' q → L = L'
  once : d.IsLast → ¬ Ended instruments ds q
  silent : Ended instruments ds q → Routes instruments ds d.stockLocate q → ¬ AtFront h d

/-- Every message that is handled does. -/
def Heeded (instruments : List InstrumentConfig) (t0 : UInt64) (q : QueueId) (ds : List Delivery) :
    Prop :=
  ∀ pre d post h h', ds = pre ++ d :: post →
    run deliver (Handler.init t0 instruments) pre = .ok h → deliver h d = .ok h' →
    Heeds instruments q pre d h

section Behind
variable {instruments : List InstrumentConfig} {t0 : UInt64} {ds : List Delivery} {d : Delivery}
  {h h' : Handler} {q : QueueId} {ps : List Push}

theorem nothingFollows_stops : NothingFollows q h.stops ↔
    ∀ L L', h.locateToQueue L = some q → h.locateToQueue L' = some q → L = L' := by
  rw [NothingFollows, Handler.stops, List.pairwise_filterMap]
  constructor
  · intro hpair
    have hlt : ∀ L L' : UInt16, h.locateToQueue L = some q → h.locateToQueue L' = some q →
        ¬ L.toNat < L'.toNat := by
      intro L L' hL hL' hless
      have hall := List.pairwise_iff_getElem.mp hpair L.toNat L'.toNat (by simpa using L.toNat_lt)
        (by simpa using L'.toNat_lt) hless
      simp only [List.getElem_range, UInt16.ofNat_toNat, hL, hL', Option.map_some] at hall
      exact hall _ rfl _ rfl rfl rfl rfl
    intro L L' hL hL'
    have h₁ := hlt L L' hL hL'
    have h₂ := hlt L' L hL' hL
    exact UInt16.toNat_inj.mp (by omega)
  · intro halone
    refine List.pairwise_lt_range.imp_of_mem fun {i j} hi hj hij p hp p' hp' hq _ hq' => ?_
    obtain ⟨q₁, hq₁, rfl⟩ := Option.map_eq_some_iff.mp hp
    obtain ⟨q₂, hq₂, rfl⟩ := Option.map_eq_some_iff.mp hp'
    cases hq
    cases hq'
    have heq := congrArg UInt16.toNat (halone _ _ hq₁ hq₂)
    rw [List.mem_range] at hi hj
    rw [UInt16.toNat_ofNat_of_lt' hi, UInt16.toNat_ofNat_of_lt' hj] at heq
    omega

/-- **One message.** -/
theorem nothingFollows_step (hrun : run deliver (Handler.init t0 instruments) ds = .ok h)
    (hstep : deliver h d = .ok h') :
    NothingFollows q h'.pushed ↔ NothingFollows q h.pushed ∧ Heeds instruments q ds d h := by
  obtain ⟨ps, hpushed, hps⟩ := deliver_pushes (run_current hrun) hstep
  have hr := run_routed hrun
  have hstopped := @run_stopped instruments ds h q t0 hrun
  have hsplit : NothingFollows q h'.pushed ↔ NothingFollows q h.pushed ∧ NothingFollows q ps ∧
      (Ended instruments ds q → ∀ p ∈ ps, p.queue ≠ q) := by
    rw [hpushed, NothingFollows, List.pairwise_append, ← hstopped]
    refine and_congr_right fun _ => and_congr_right fun _ => ⟨?_, ?_⟩
    · rintro hcross ⟨p, hp, hq, hmsg⟩ p' hp'
      exact hcross p hp p' hp' hq hmsg
    · intro hcross p hp p' hp' hq hmsg
      exact hcross ⟨p, hp, hq, hmsg⟩ p' hp'
  rw [hsplit]
  refine and_congr_right fun _ => ?_
  cases hps with
  | nothing hlast hquiet heq =>
    rw [heq]
    exact iff_of_true ⟨List.Pairwise.nil, by simp⟩
      ⟨fun h => absurd h hlast, fun h => absurd h hlast, fun _ _ => hquiet⟩
  | update p hlast hfront hlocate hqueue hmsg heq =>
    rw [heq]
    have hroutes := hr.routes_iff d.stockLocate
    constructor
    · rintro ⟨-, hcross⟩
      refine ⟨fun h => absurd h hlast, fun h => absurd h hlast, fun hended hroute _ => ?_⟩
      have hq := (hroutes q).mpr hroute
      rw [hqueue] at hq
      exact hcross hended p (List.mem_singleton_self p) (Option.some.inj hq)
    · intro hheeds
      refine ⟨List.pairwise_singleton _ p, fun hended p' hp' hq => ?_⟩
      rw [List.mem_singleton.mp hp'] at hq
      exact hheeds.silent hended ((hroutes q).mp (hq ▸ hqueue)) hfront
  | stops hlast hquiet heq =>
    rw [heq, nothingFollows_stops]
    constructor
    · rintro ⟨halone, hcross⟩
      refine ⟨fun _ L L' hL hL' => ?_, fun _ hended => ?_, fun _ _ => hquiet⟩
      · exact halone L L' ((hr.routes_iff L q).mpr hL) ((hr.routes_iff L' q).mpr hL')
      · obtain ⟨L, hL⟩ := hended.routes
        exact hcross hended ⟨L, q, .stop⟩ (mem_stops.mpr ⟨(hr.routes_iff L q).mpr hL, rfl⟩) rfl
    · intro hheeds
      refine ⟨fun L L' hL hL' => ?_, fun hended => absurd hended (hheeds.once hlast)⟩
      exact hheeds.alone hlast L L' ((hr.routes_iff L q).mp hL) ((hr.routes_iff L' q).mp hL')

theorem heeded_concat {ds : List Delivery} {d : Delivery} (hheeded : Heeded instruments t0 q ds)
    (hheeds : ∀ h, run deliver (Handler.init t0 instruments) ds = .ok h → Heeds instruments q ds d h) :
    Heeded instruments t0 q (ds ++ [d]) := by
  intro pre d' post k k' heq hk hk'
  rcases split_concat_cons heq with ⟨rfl, rfl, -⟩ | ⟨post, -, heq⟩
  · exact hheeds k hk
  · exact hheeded pre d' post k k' heq hk hk'

/-- **A run of messages.** -/
theorem nothingFollows_run (hrun : run deliver (Handler.init t0 instruments) ds = .ok h) :
    NothingFollows q h.pushed ↔ Heeded instruments t0 q ds := by
  induction ds using List.reverseRecOn generalizing h with
  | nil =>
    cases hrun
    refine iff_of_true List.Pairwise.nil ?_
    intro pre d post g g' heq
    simp at heq
  | append_singleton ds d ih =>
    obtain ⟨g, hg, hstep⟩ := run_concat_ok hrun
    rw [nothingFollows_step hg hstep, ih hg]
    constructor
    · rintro ⟨hheeded, hheeds⟩
      exact heeded_concat hheeded fun k hk => by cases hg.symm.trans hk; exact hheeds
    · intro hheeded
      refine ⟨fun pre d' post k k' heq hk hk' => ?_, hheeded ds d [] g h rfl hg hstep⟩
      exact hheeded pre d' (post ++ [d]) k k' (by rw [heq]; simp) hk hk'

end Behind

/-! ## Behind the loop -/

section Loop
variable {instruments : List InstrumentConfig} {t0 : UInt64} {q : QueueId}

/-- A message that fails is not handled, and neither is any behind it. -/
theorem heeded_of_failed {pre post : List Delivery} {d : Delivery} {h : Handler} {fault : Fault}
    (hrun : run deliver (Handler.init t0 instruments) pre = .ok h)
    (hfail : deliver h d = .error fault) :
    Heeded instruments t0 q (pre ++ d :: post) ↔ Heeded instruments t0 q pre := by
  constructor
  · intro hheeded pre' d' post' k k' heq hk hk'
    exact hheeded pre' d' (post' ++ d :: post) k k' (by rw [heq]; simp) hk hk'
  · intro hheeded pre' d' post' k k' heq hk hk'
    have hhandled : run deliver (Handler.init t0 instruments) (pre' ++ [d']) = .ok k' :=
      (run_concat hk d').trans hk'
    have hprefix : pre' ++ [d'] <+: pre ++ d :: post := ⟨post', by rw [heq]; simp⟩
    have hprefix' : pre ++ [d] <+: pre ++ d :: post := ⟨post, by simp⟩
    rcases List.prefix_or_prefix_of_prefix hprefix hprefix' with hshort | ⟨rest, hlong⟩
    · rcases List.prefix_concat_iff.mp hshort with hsame | ⟨rest, hrest⟩
      · obtain ⟨rfl, hd⟩ := List.append_inj' hsame rfl
        cases hd
        cases hrun.symm.trans hk
        rw [hfail] at hk'
        cases hk'
      · exact hheeded pre' d' rest k k' (by rw [← hrest]; simp) hk hk'
    · rw [← hlong, List.append_assoc, List.singleton_append, run_error_of hrun hfail] at hhandled
      cases hhandled

/-- An end event that is the only one, and the last message that is handled. -/
theorem heeded_last {ds : List Delivery} (hds : ∀ d ∈ ds, ¬ d.IsLast)
    (halone : ∀ L L', Routes instruments ds L q → Routes instruments ds L' q → L = L')
    (d : Delivery) : Heeded instruments t0 q (ds ++ [d]) := by
  intro pre d' post k k' heq _ _
  have hended : ∀ ds', ds' <+: ds → ¬ Ended instruments ds' q := by
    rintro ds' hpre ⟨pre', d'', post', L, rfl, hlast, -⟩
    exact hds d'' (hpre.subset (by simp)) hlast
  have hhandled : pre ++ [d'] <+: ds ++ [d] := ⟨post, by rw [heq]; simp⟩
  rcases List.prefix_concat_iff.mp hhandled with hsame | hshort
  · obtain ⟨rfl, -⟩ := List.append_inj' hsame rfl
    have hno := hended pre (List.prefix_refl pre)
    exact ⟨fun _ => halone, fun _ => hno, fun h => absurd h hno⟩
  · have hno := hended pre ((List.prefix_append pre [d']).trans hshort)
    have hlast : ¬ d'.IsLast := hds d' (hshort.subset (by simp))
    exact ⟨fun h => absurd h hlast, fun h => absurd h hlast, fun h => absurd h hno⟩

theorem nothingFollows_session {clock : ℕ → UInt64} {ms : List Message} {s : Session}
    (hs : Session.After clock (Handler.init t0 instruments) ms s) :
    NothingFollows q s.handler.pushed ↔ Heeded instruments t0 q (Message.stamp clock ms) := by
  cases hs with
  | going hclock hreads hfault hrun => exact nothingFollows_run hrun
  | failed pre post d h fault hfault heq hrun hfail hhandler =>
    rw [heq, heeded_of_failed hrun hfail, hhandler]
    show NothingFollows q h.pushed ↔ _
    exact nothingFollows_run hrun

/-- **When nothing follows `Stop`**: if the rest of the burst heeds the end event, and that finds one
code for the queue. -/
theorem nothing_follows_iff {bursts : List Burst} {frames : List (List (List Frame))}
    (hall : Carried bursts frames) (instruments : List InstrumentConfig) (t0 : UInt64)
    (clock : ℕ → UInt64) (junk : (ty : MessageType) → ty.Msg) (lastPrint hz : UInt64)
    (q : QueueId) :
    ∃ v', ingestMessages (parseRegion engine junk) Session.shouldStop hz bursts
        (Ingestion.start lastPrint (Session.start clock (Handler.init t0 instruments))) =
          .returned v' ∧
      (NothingFollows q v'.handler.handler.pushed ↔ Heeded instruments t0 q
        (Message.stamp clock (taken (frames.map fun packets =>
          Message.ofFrames junk packets.flatten)))) := by
  obtain ⟨v', hrun, hhandler⟩ := @ingestMessages_taken junk bursts frames hall hz
    (Ingestion.start lastPrint (Session.start clock (Handler.init t0 instruments))) rfl
  refine ⟨v', hrun, ?_⟩
  rw [hhandler]
  exact nothingFollows_session (Session.after_start clock _ _)

end Loop

/-! ## A feed that goes on -/

/-- The instrument NVDA, with the queue 0. -/
def nvda : InstrumentConfig := ⟨[78, 86, 68, 65], some 0⟩

/-- NVDA has the code 9. -/
def nvdaDirectory : StockDirectory :=
  { (default : StockDirectory) with stockLocate := 9, stock := #v[78, 86, 68, 65, 32, 32, 32, 32] }

/-- The directory message that gives NVDA the code 9. -/
def directoryFrame : Frame :=
  ⟨82, [0, 9, 0, 0, 0, 0, 0, 0, 0, 0, 78, 86, 68, 65, 32, 32, 32, 32] ++ List.replicate 20 0, by decide⟩

def endFrame : Frame := ⟨83, [0, 0, 0, 0, 0, 0, 0, 0, 0, 0, 67], by decide⟩

/-- A bid of five shares for the code 9. -/
def bid (orderId : UInt64) (price : UInt32) : AddOrderNoMpid :=
  ⟨9, 0, 0, orderId, 66, 5, #v[78, 86, 68, 65, 32, 32, 32, 32], price⟩

/-- The frame of such a bid. -/
def bidFrame (orderId price : UInt8) : Frame :=
  ⟨65, [0, 9, 0, 0, 0, 0, 0, 0, 0, 0, 0, 0, 0, 0, 0, 0, 0, orderId, 66, 0, 0, 0, 5, 78, 86, 68, 65, 32, 32,
    32, 32, 0, 0, 0, price], show 36 < 2 ^ 16 by decide⟩

theorem sample_frames : ∀ f ∈ [directoryFrame, bidFrame 1 10, bidFrame 2 11, endFrame, bidFrame 3 5],
    f.Known ∧ f.Filled engine := by
  have hbid : ∀ orderId price, (bidFrame orderId price).Known ∧ (bidFrame orderId price).Filled engine := by
    intro orderId price
    refine ⟨⟨.addOrderNoMpid, rfl⟩, fun ty hraw _ => ?_⟩
    obtain rfl : ty = .addOrderNoMpid := MessageType.raw_injective hraw
    exact le_refl 35
  intro f hf
  simp only [List.mem_cons, List.not_mem_nil, or_false] at hf
  rcases hf with rfl | rfl | rfl | rfl | rfl
  · refine ⟨⟨.stockDirectory, rfl⟩, fun ty hraw _ => ?_⟩
    obtain rfl : ty = .stockDirectory := MessageType.raw_injective hraw
    decide
  · exact hbid 1 10
  · exact hbid 2 11
  · refine ⟨⟨.systemEvent, rfl⟩, fun ty hraw _ => ?_⟩
    obtain rfl : ty = .systemEvent := MessageType.raw_injective hraw
    decide
  · exact hbid 3 5

theorem sample_carries {frames : List Frame}
    (hsub : frames ⊆ [directoryFrame, bidFrame 1 10, bidFrame 2 11, endFrame, bidFrame 3 5])
    (hlen : (frames.map Frame.size).sum ≤ 1000) (hfew : frames.length ≤ 5) :
    Carries (packet frames) frames := by
  refine packet_carries (fun f hf => (sample_frames f (hsub hf)).1)
    (fun f hf => (sample_frames f (hsub hf)).2) ?_
  have hbytes : (frames.flatMap Frame.bytes).length = 2 * frames.length + (frames.map Frame.size).sum := by
    clear hsub hlen hfew
    induction frames with
    | nil => rfl
    | cons f frames ih =>
      rw [List.flatMap_cons, List.length_append, ih, Frame.length_bytes, List.map_cons, List.sum_cons,
        List.length_cons]
      omega
  have hroom : dataRoom = 2048 := rfl
  have hstart : itchStart = 62 := rfl
  omega

theorem sample_messages : Message.ofFrames (fun _ => default)
    [directoryFrame, bidFrame 1 10, bidFrame 2 11, endFrame, bidFrame 3 5] =
    [⟨.stockDirectory, nvdaDirectory⟩, ⟨.addOrderNoMpid, bid 1 10⟩, ⟨.addOrderNoMpid, bid 2 11⟩,
      ⟨.systemEvent, ⟨0, 0, 0, 67⟩⟩, ⟨.addOrderNoMpid, bid 3 5⟩] := by
  have hdirectory : Message.ofFrame (fun _ => default) directoryFrame =
    some ⟨.stockDirectory, nvdaDirectory⟩ := rfl
  have hend : Message.ofFrame (fun _ => default) endFrame = some ⟨.systemEvent, ⟨0, 0, 0, 67⟩⟩ := rfl
  have hbid₁ : Message.ofFrame (fun _ => default) (bidFrame 1 10) = some ⟨.addOrderNoMpid, bid 1 10⟩ := rfl
  have hbid₂ : Message.ofFrame (fun _ => default) (bidFrame 2 11) = some ⟨.addOrderNoMpid, bid 2 11⟩ := rfl
  have hbid₃ : Message.ofFrame (fun _ => default) (bidFrame 3 5) = some ⟨.addOrderNoMpid, bid 3 5⟩ := rfl
  simp only [Message.ofFrames, List.filterMap_cons, List.filterMap_nil, hdirectory, hbid₁, hbid₂, hend, hbid₃]

/-- Two bids are better than the one behind the end event, and the last one comes in a burst of its own:
the loop has ended. -/
theorem nothing_follows_sample :
    ∃ v', ingestMessages (parseRegion engine fun _ => default) Session.shouldStop 0
        [⟨[packet [directoryFrame, bidFrame 1 10, bidFrame 2 11, endFrame, bidFrame 3 5]], 0, by decide⟩,
          ⟨[packet [bidFrame 1 10]], 0, by decide⟩]
        (Ingestion.start 0 (Session.start (fun _ => 0) (Handler.init 0 [nvda]))) =
          .returned v' ∧ NothingFollows 0 v'.handler.handler.pushed := by
  have hall : Carried
      [⟨[packet [directoryFrame, bidFrame 1 10, bidFrame 2 11, endFrame, bidFrame 3 5]], 0, by decide⟩,
        ⟨[packet [bidFrame 1 10]], 0, by decide⟩]
      [[[directoryFrame, bidFrame 1 10, bidFrame 2 11, endFrame, bidFrame 3 5]], [[bidFrame 1 10]]] :=
    .cons (.cons (sample_carries (by simp) (by decide) (by decide)) .nil)
      (.cons (.cons (sample_carries (by simp) (by decide) (by decide)) .nil) .nil)
  obtain ⟨v', hrun, hiff⟩ := nothing_follows_iff hall [nvda] 0 (fun _ => 0)
    (fun _ => default) 0 0 0
  have hms : Message.stamp (fun _ => 0) (taken
      ([[[directoryFrame, bidFrame 1 10, bidFrame 2 11, endFrame, bidFrame 3 5]], [[bidFrame 1 10]]].map
        fun packets => Message.ofFrames (fun _ => default) packets.flatten)) =
      ([⟨0, .stockDirectory, nvdaDirectory⟩, ⟨0, .addOrderNoMpid, bid 1 10⟩,
        ⟨0, .addOrderNoMpid, bid 2 11⟩] ++ [⟨0, .systemEvent, ⟨0, 0, 0, 67⟩⟩]) ++
      [⟨0, .addOrderNoMpid, bid 3 5⟩] := by
    rw [List.map_cons, List.flatten_cons, List.flatten_nil, List.append_nil, sample_messages]
    rfl
  rw [hms] at hiff
  refine ⟨v', hrun, hiff.mpr (heeded_concat (heeded_last ?_ ?_ _) fun h hrun' => ?_)⟩
  · intro d hd
    simp only [List.mem_cons, List.not_mem_nil, or_false] at hd
    rcases hd with rfl | rfl | rfl <;> exact not_isLast rfl
  · have honly : ∀ L, Routes [nvda] [⟨0, .stockDirectory, nvdaDirectory⟩,
        ⟨0, .addOrderNoMpid, bid 1 10⟩, ⟨0, .addOrderNoMpid, bid 2 11⟩] L 0 → L = 9 := by
      intro L hL
      obtain ⟨d, hd, msg, hmsg, rfl⟩ := hL.announced
      simp only [List.mem_cons, List.not_mem_nil, or_false] at hd
      rcases hd with rfl | rfl | rfl <;> cases hmsg
      rfl
    intro L L' hL hL'
    rw [honly L hL, honly L' hL']
  · have hquiet : ¬ AtFront h ⟨0, .addOrderNoMpid, bid 3 5⟩ := by
      cases hrun'
      rintro ⟨op, i, book, hop, hlocate, hbook, hfront⟩
      cases hop
      cases hlocate
      cases hbook
      exact absurd hfront (show ¬ (2 ≤ 1) by decide)
    exact ⟨fun hlast => absurd hlast (not_isLast rfl), fun hlast => absurd hlast (not_isLast rfl),
      fun _ _ => hquiet⟩

/-- The only bid comes behind the end event, in the same packet. -/
theorem bid_follows_stop :
    ¬ ∀ (bursts : List Burst) (frames : List (List (List Frame))), Carried bursts frames →
      ∀ (instruments : List InstrumentConfig) (t0 : UInt64) (clock : ℕ → UInt64)
        (junk : (ty : MessageType) → ty.Msg) (lastPrint hz : UInt64) (v' : Ingestion Session),
      ingestMessages (parseRegion engine junk) Session.shouldStop hz bursts
        (Ingestion.start lastPrint (Session.start clock (Handler.init t0 instruments))) =
          .returned v' → ∀ q, NothingFollows q v'.handler.handler.pushed := by
  intro hclaim
  have hpacket : Carries (packet [directoryFrame, endFrame, bidFrame 1 10])
      [directoryFrame, endFrame, bidFrame 1 10] := sample_carries (by simp) (by decide) (by decide)
  have hall : Carried [⟨[packet [directoryFrame, endFrame, bidFrame 1 10]], 0, by decide⟩]
      [[[directoryFrame, endFrame, bidFrame 1 10]]] := .cons (.cons hpacket .nil) .nil
  obtain ⟨v', hrun, hhandler⟩ := @ingestMessages_taken (fun _ => default) _ _ hall 0
    (Ingestion.start 0 (Session.start (fun _ => 0) (Handler.init 0 [nvda]))) rfl
  have hnothing := hclaim _ _ hall [nvda] 0 (fun _ => 0) (fun _ => default) 0 0
    v' hrun 0
  have hms : taken ([[[directoryFrame, endFrame, bidFrame 1 10]]].map fun packets =>
      Message.ofFrames (fun _ => default) packets.flatten) =
      [⟨.stockDirectory, nvdaDirectory⟩,
      ⟨.systemEvent, ⟨0, 0, 0, 67⟩⟩,
      ⟨.addOrderNoMpid, bid 1 10⟩] := rfl
  rw [hhandler, hms] at hnothing
  have hheeded := (nothingFollows_session (Session.after_start (fun _ => 0) _ _)).mp hnothing
  obtain ⟨h, h', hreach, hstep, hfront⟩ : ∃ h h',
      run deliver (Handler.init 0 [nvda])
        [⟨0, .stockDirectory, nvdaDirectory⟩, ⟨0, .systemEvent, ⟨0, 0, 0, 67⟩⟩] = .ok h ∧
      deliver h ⟨0, .addOrderNoMpid, bid 1 10⟩ =
        .ok h' ∧
      AtFront h ⟨0, .addOrderNoMpid, bid 1 10⟩ :=
    ⟨_, _, rfl, rfl, _, _, OrderBook.empty, rfl, rfl, rfl, show _ ≤ 1 by decide⟩
  have hended : Ended [nvda]
      [⟨0, .stockDirectory, nvdaDirectory⟩, ⟨0, .systemEvent, ⟨0, 0, 0, 67⟩⟩] 0 :=
    ⟨[⟨0, .stockDirectory, nvdaDirectory⟩], _, [], 9, rfl, ⟨_, rfl, rfl⟩, rfl⟩
  exact (hheeded _ _ [] h h' rfl hreach hstep).silent hended rfl hfront

end ItchIngestion.Engine
