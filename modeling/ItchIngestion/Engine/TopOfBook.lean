import ItchIngestion.Engine.Handler
import ItchIngestion.Library.Run

/-! # The published top of book

A strategy sees changes only. `lastUpdate` is what it believes the best level of a side to be, and
`Current` says that it is right, for every bound locate code; every move of the handler keeps that
(`Current.moves`). The argument is `Announces` for the book of the message, and that no other locate
code has the same book.
-/
namespace ItchIngestion.Engine
open Library ITCH OB
set_option autoImplicit false

/-! ## What a strategy has been told -/

/-- The level that a push names for a side of a locate code. -/
def Push.update (p : Push) (L : UInt16) (S : Side) : Option Level :=
  match p.msg with
  | .bookUpdate _ qty price side => if p.locate = L ∧ side = S then some ⟨qty, price⟩ else none
  | .stop => none

/-- The level in the last update of a side, or the empty level. -/
def lastUpdate (pushed : List Push) (L : UInt16) (S : Side) : Level :=
  ((pushed.filterMap fun p => p.update L S).getLast?).getD ⟨0, 0⟩

section LastUpdate
variable {pushed ps : List Push} {L : UInt16} {S : Side}

theorem lastUpdate_append (h : ∀ p ∈ ps, p.update L S = none) :
    lastUpdate (pushed ++ ps) L S = lastUpdate pushed L S := by
  have hnone : ps.filterMap (fun p => p.update L S) = [] := List.filterMap_eq_nil_iff.mpr h
  rw [lastUpdate, List.filterMap_append, hnone, List.append_nil, lastUpdate]

theorem lastUpdate_concat (locate : UInt16) (q : QueueId) (t0 : UInt64) (change : BestLvlChange) :
    lastUpdate (pushed ++ [⟨locate, q, .bookUpdate t0 change.qty change.price change.side⟩]) L S =
      if locate = L ∧ change.side = S then ⟨change.qty, change.price⟩ else lastUpdate pushed L S := by
  split
  · rename_i h
    simp [lastUpdate, Push.update, h]
  · rename_i h
    apply lastUpdate_append
    intro p hp
    rw [List.mem_singleton.mp hp]
    exact if_neg h

theorem lastUpdate_handleChange {h h' : Handler} {locate : UInt16} {change : BestLvlChange}
    (hpushed : (change.side = Side.None ∧ h'.pushed = h.pushed) ∨
      (change.side ≠ Side.None ∧ ∃ q, h.locateToQueue locate = some q ∧ h'.pushed = h.pushed ++
        [⟨locate, q, .bookUpdate h'.t0 change.qty change.price change.side⟩]))
    (hS : S = Side.Bid ∨ S = Side.Ask) : lastUpdate h'.pushed L S =
      if locate = L ∧ change.side = S then ⟨change.qty, change.price⟩
      else lastUpdate h.pushed L S := by
  cases hpushed with
  | inl hnone =>
    have hne : ¬ (locate = L ∧ change.side = S) :=
      fun e => Side.ne_none hS (e.2.symm.trans hnone.1)
    rw [if_neg hne, hnone.2]
  | inr hsome =>
    obtain ⟨-, q, -, heq⟩ := hsome
    rw [heq, lastUpdate_concat]

theorem lastUpdate_none (h : ∀ p ∈ pushed, p.update L S = none) : lastUpdate pushed L S = ⟨0, 0⟩ :=
  @lastUpdate_append [] pushed L S h

theorem stops_update (h : Handler) {p : Push} (hp : p ∈ h.stops) : p.update L S = none := by
  rw [Push.update, (mem_stops.mp hp).2]

end LastUpdate

/-! ## The invariant -/

/-- The best levels of a book are the ones published for a locate code. -/
def Published (h : Handler) (L : UInt16) (book : Book) : Prop :=
  book.WellFormed ∧ ∀ S, S = Side.Bid ∨ S = Side.Ask → lastUpdate h.pushed L S = book.top S

/-- The last updates are the best levels of the books, and every code has a book of its own. -/
structure Current (h : Handler) : Prop where
  bound : ∀ L i, h.locateToBook L = some i → ∃ book, h.books[i]? = some book ∧ Published h L book
  unbound : ∀ L S, h.locateToBook L = none → ∀ p ∈ h.pushed, p.update L S = none
  distinct : ∀ L L' i, h.locateToBook L = some i → h.locateToBook L' = some i → L = L'

theorem init_current (t0 : UInt64) (instruments : List InstrumentConfig) :
    Current (Handler.init t0 instruments) where
  bound _ _ h := by cases h
  unbound _ _ _ p hp := by cases hp
  distinct _ _ _ h := by cases h

theorem empty_top (S : Side) : (OrderBook.empty : Book).top S = ⟨0, 0⟩ := by
  unfold OrderBook.top
  split <;> rfl

section Moves
variable {h h' : Handler} (hcur : Current h)
include hcur

theorem Current.quiet (hsame : SameBooks h h')
    (hpushed : h'.pushed = h.pushed ∨ h'.pushed = h.pushed ++ h.stops) : Current h' := by
  have hupdate : ∀ L S, lastUpdate h'.pushed L S = lastUpdate h.pushed L S := by
    intro L S
    cases hpushed with
    | inl heq => rw [heq]
    | inr heq => rw [heq, lastUpdate_append fun p hp => stops_update h hp]
  refine ⟨fun L i hL => ?_, fun L S hL p hp => ?_, fun L L' i hL hL' => ?_⟩
  · rw [hsame.locateToBook] at hL
    obtain ⟨book, hbook, hwf, htop⟩ := hcur.bound L i hL
    refine ⟨book, by rw [hsame.books, hbook], hwf, fun S hS => ?_⟩
    rw [hupdate, htop S hS]
  · rw [hsame.locateToBook] at hL
    cases hpushed with
    | inl heq => exact hcur.unbound L S hL p (heq ▸ hp)
    | inr heq =>
      rw [heq, List.mem_append] at hp
      exact hp.elim (hcur.unbound L S hL p) (stops_update h)
  · rw [hsame.locateToBook] at hL hL'
    exact hcur.distinct L L' i hL hL'

theorem Current.lt_length {L : UInt16} {i : ℕ} (hL : h.locateToBook L = some i) :
    i < h.books.length := by
  obtain ⟨book, hbook, -⟩ := hcur.bound L i hL
  exact (List.getElem?_eq_some_iff.mp hbook).1

theorem Current.bind {locate : UInt16} (hfree : h.locateToBook locate = none)
    (hbooks : h'.books = h.books ++ [OrderBook.empty])
    (hbook : h'.locateToBook = Function.update h.locateToBook locate (some h.books.length))
    (hpushed : h'.pushed = h.pushed) : Current h' := by
  refine ⟨fun L i hL => ?_, fun L S hL p hp => ?_, fun L L' i hL hL' => ?_⟩
  · rw [hbook] at hL
    by_cases hlocate : L = locate
    · subst hlocate
      rw [Function.update_self, Option.some.injEq] at hL
      refine ⟨OrderBook.empty, by rw [hbooks, ← hL]; simp, OrderBook.empty_wellFormed, fun S _ => ?_⟩
      rw [hpushed, empty_top]
      exact lastUpdate_none (hcur.unbound L S hfree)
    · rw [Function.update_of_ne hlocate] at hL
      obtain ⟨book, hat, hwf, htop⟩ := hcur.bound L i hL
      refine ⟨book, ?_, hwf, fun S hS => by rw [hpushed, htop S hS]⟩
      rw [hbooks, List.getElem?_append_left (hcur.lt_length hL), hat]
  · rw [hbook] at hL
    by_cases hlocate : L = locate
    · subst hlocate
      rw [Function.update_self] at hL
      cases hL
    · rw [Function.update_of_ne hlocate] at hL
      exact hcur.unbound L S hL p (hpushed ▸ hp)
  · rw [hbook] at hL hL'
    by_cases hlocate : L = locate
    · by_cases hlocate' : L' = locate
      · rw [hlocate, hlocate']
      · rw [hlocate, Function.update_self, Option.some.injEq] at hL
        rw [Function.update_of_ne hlocate'] at hL'
        have := hcur.lt_length hL'
        omega
    · rw [Function.update_of_ne hlocate] at hL
      by_cases hlocate' : L' = locate
      · rw [hlocate', Function.update_self, Option.some.injEq] at hL'
        have := hcur.lt_length hL
        omega
      · rw [Function.update_of_ne hlocate'] at hL'
        exact hcur.distinct L L' i hL hL'

theorem Current.trade {locate : UInt16} {i : ℕ} {op : Op} {book book' : Book}
    {change : BestLvlChange} (hbound : h.locateToBook locate = some i)
    (hbook : h.books[i]? = some book) (happly : book.apply op = .ok (change, book'))
    (hbooks : h'.books = h.books.set i book') (hlocate : h'.locateToBook = h.locateToBook)
    (hpushed : (change.side = Side.None ∧ h'.pushed = h.pushed) ∨
      (change.side ≠ Side.None ∧ ∃ q, h.locateToQueue locate = some q ∧ h'.pushed = h.pushed ++
        [⟨locate, q, .bookUpdate h'.t0 change.qty change.price change.side⟩])) : Current h' := by
  have hi := hcur.lt_length hbound
  have hlast := fun L S => @lastUpdate_handleChange L S h h' locate change hpushed
  obtain ⟨book₀, hbook₀, hwf, htop⟩ := hcur.bound locate i hbound
  obtain rfl : book = book₀ := Option.some.inj (hbook.symm.trans hbook₀)
  obtain ⟨hwf', side, hann⟩ := OrderBook.apply_announces hwf happly
  refine ⟨fun L j hL => ?_, fun L S hL p hp => ?_, fun L L' j hL hL' => ?_⟩
  · rw [hlocate] at hL
    by_cases hsame : locate = L
    · subst hsame
      obtain rfl : i = j := Option.some.inj (hbound.symm.trans hL)
      refine ⟨book', by rw [hbooks, List.getElem?_set_self hi], hwf', fun S hS => ?_⟩
      rw [hlast locate S hS, hann.top_eq S hS, htop S hS]
      simp only [true_and]
    · have hij : i ≠ j := fun e => hsame (hcur.distinct locate L i hbound (e ▸ hL))
      obtain ⟨book₁, hbook₁, hwf₁, htop₁⟩ := hcur.bound L j hL
      refine ⟨book₁, by rw [hbooks, List.getElem?_set_ne hij, hbook₁], hwf₁, fun S hS => ?_⟩
      rw [hlast L S hS, if_neg fun e => hsame e.1, htop₁ S hS]
  · rw [hlocate] at hL
    have hne : locate ≠ L := by
      rintro rfl
      rw [hbound] at hL
      cases hL
    cases hpushed with
    | inl hnone => exact hcur.unbound L S hL p (hnone.2 ▸ hp)
    | inr hsome =>
      obtain ⟨-, q, -, heq⟩ := hsome
      rw [heq, List.mem_append, List.mem_singleton] at hp
      cases hp with
      | inl hp => exact hcur.unbound L S hL p hp
      | inr hp =>
        rw [hp]
        exact if_neg fun e => hne e.1
  · rw [hlocate] at hL hL'
    exact hcur.distinct L L' j hL hL'

theorem Current.moves (hmoves : Moves h h') : Current h' := by
  cases hmoves with
  | quiet hsame hpushed => exact hcur.quiet hsame hpushed
  | bound locate queue hfree hbooks hbook hqueue hpushed =>
    exact hcur.bind hfree hbooks hbook hpushed
  | traded locate i op book book' change hbound hbook happly hbooks hlocate hqueue hpushed =>
    exact hcur.trade hbound hbook happly hbooks hlocate hpushed

end Moves

/-- **Every message keeps the published levels current.** -/
theorem Current.deliver {h h' : Handler} {d : Delivery} (hcur : Current h)
    (hrun : deliver h d = .ok h') : Current h' := by
  have hbefore : Current (h.handleBefore d.tsc) := ⟨hcur.bound, hcur.unbound, hcur.distinct⟩
  exact hbefore.moves (deliver_moves hrun)

theorem run_current {t0 : UInt64} {instruments : List InstrumentConfig} {ds : List Delivery}
    {h : Handler} (hrun : run deliver (Handler.init t0 instruments) ds = .ok h) : Current h :=
  run_invariant Current (init_current t0 instruments) (fun _ _ _ hcur hstep => hcur.deliver hstep) hrun

/-- **The published top of book is always current.** -/
theorem published_top_current {t0 : UInt64} {instruments : List InstrumentConfig}
    {ds : List Delivery} {h : Handler}
    (hrun : run deliver (Handler.init t0 instruments) ds = .ok h) {L : UInt16} {i : ℕ}
    (hbound : h.locateToBook L = some i) :
    ∃ book, h.books[i]? = some book ∧
      book.bestBid = .ok (lastUpdate h.pushed L Side.Bid, book) ∧
      book.bestAsk = .ok (lastUpdate h.pushed L Side.Ask, book) := by
  obtain ⟨book, hbook, hwf, htop⟩ := (run_current hrun).bound L i hbound
  obtain ⟨hbid, hask⟩ := OrderBook.best_eq_top hwf
  exact ⟨book, hbook, by rw [htop _ (Or.inl rfl), hbid], by rw [htop _ (Or.inr rfl), hask]⟩

/-- A directory message, two bids and the replacement of the better one. -/
theorem published_top_sample :
    ∃ (h : Handler) (book : Book),
      run deliver (Handler.init 0 [⟨[78, 86, 68, 65], some 0⟩])
        [⟨1, .stockDirectory, { (default : StockDirectory) with
            stockLocate := 9, stock := #v[78, 86, 68, 65, 32, 32, 32, 32] }⟩,
          ⟨2, .addOrderNoMpid, ⟨9, 0, 0, 1, 66, 100, default, 10⟩⟩,
          ⟨3, .addOrderNoMpid, ⟨9, 0, 0, 2, 66, 40, default, 11⟩⟩,
          ⟨4, .orderReplace, ⟨9, 0, 0, 2, 3, 50, 8⟩⟩] = .ok h ∧
      h.pushed.length = 3 ∧ book.bestBid = .ok (⟨100, 10⟩, book) := by
  obtain ⟨h, hrun, hbound, hpushed, hlast⟩ : ∃ h : Handler,
      run deliver (Handler.init 0 [⟨[78, 86, 68, 65], some 0⟩])
        [⟨1, .stockDirectory, { (default : StockDirectory) with
            stockLocate := 9, stock := #v[78, 86, 68, 65, 32, 32, 32, 32] }⟩,
          ⟨2, .addOrderNoMpid, ⟨9, 0, 0, 1, 66, 100, default, 10⟩⟩,
          ⟨3, .addOrderNoMpid, ⟨9, 0, 0, 2, 66, 40, default, 11⟩⟩,
          ⟨4, .orderReplace, ⟨9, 0, 0, 2, 3, 50, 8⟩⟩] = .ok h ∧ h.locateToBook 9 = some 0 ∧
      h.pushed.length = 3 ∧ lastUpdate h.pushed 9 Side.Bid = ⟨100, 10⟩ := ⟨_, rfl, rfl, rfl, rfl⟩
  obtain ⟨book, -, hbid, -⟩ := published_top_current hrun hbound
  exact ⟨h, book, hrun, hpushed, by rw [hbid, hlast]⟩

end ItchIngestion.Engine
