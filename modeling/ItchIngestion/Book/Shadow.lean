import ItchIngestion.Book.Commutation

/-! # A book and its shadow

`Shadow` relates two books that show the same levels, up to one: at a given place the second book may
have a level of quantity zero (a ghost) where the first has none. What the first book goes through
the second goes through as well, and an addition at the place lays the ghost (`Shadow.apply`). The
other way round a removal at the place is what can part them (`Shadow.apply_base`). Whether the ghost
is among the best levels is a question to the first book (`Shadow.sameBest_iff`).
-/
namespace ItchIngestion.OB
open Library
set_option autoImplicit false

theorem Side.book_book (side : Side) : side.book.book = side.book := by
  unfold Side.book
  split <;> simp

theorem Side.book_cases (side : Side) : side.book = Side.Bid ∨ side.book = Side.Ask := by
  unfold Side.book
  split <;> simp

namespace OrderBook

/-! ## Views, price by price -/

section Views
variable {b b' : Book} {s S : Side} {level : Level} {c : BestLvlChange}

theorem top_isBest (h : b.WellFormed) (S : Side) : LevelMap.IsBest S.book (b.view S) (b.top S) := by
  by_cases hS : S = Side.Bid
  · subst hS
    exact VectorLevelBSearchSplit.best_spec h.bid
  · rw [view, top, if_neg hS, if_neg hS, Side.book_eq_ask.mpr hS]
    exact VectorLevelBSearchSplit.best_spec h.ask

end Views

/-! ## The shadow of a book -/

/-- `e` has the levels of `b`, up to a level of zero at the price of the order where `b` has none
(`ghost`). -/
structure Shadow (side : Side) (price : UInt32) (ghost : Prop) (b e : Book) : Prop where
  base : b.WellFormed
  extended : e.WellFormed
  elsewhere : ∀ S q, ¬ (S.book = side.book ∧ q = price) → e.view S q = b.view S q
  there : ghost → b.view side price = none ∧ e.view side price = some 0
  same : ¬ ghost → e.view side price = b.view side price

section Shadow
variable {side : Side} {price : UInt32} {ghost : Prop} {b b' e e' : Book} {s : Side} {level : Level}
  {c : BestLvlChange}

theorem Shadow.congr {ghost' : Prop} (h : Shadow side price ghost b e) (hiff : ghost ↔ ghost') :
    Shadow side price ghost' b e := by
  rwa [← propext hiff]

theorem Shadow.setOrders (h : Shadow side price ghost b e) (m m' : Orders) :
    Shadow side price ghost { b with ordersMap := m } { e with ordersMap := m' } where
  base := ⟨h.base.bid, h.base.ask⟩
  extended := ⟨h.extended.bid, h.extended.ask⟩
  elsewhere := h.elsewhere
  there := h.there
  same := h.same

theorem Shadow.view_eq (h : Shadow side price ghost b e) {S : Side} {q : UInt32}
    (hne : ¬ (ghost ∧ S.book = side.book ∧ q = price)) : e.view S q = b.view S q := by
  by_cases hat : S.book = side.book ∧ q = price
  · rw [view_at e hat, view_at b hat]
    exact h.same fun hg => hne ⟨hg, hat⟩
  · exact h.elsewhere S q hat

theorem Shadow.getD_eq (h : Shadow side price ghost b e) (S : Side) (q : UInt32) :
    (e.view S q).getD 0 = (b.view S q).getD 0 := by
  by_cases hne : ghost ∧ S.book = side.book ∧ q = price
  · obtain ⟨hg, hat⟩ := hne
    obtain ⟨hb, he⟩ := h.there hg
    rw [view_at e hat, view_at b hat, hb, he]
    rfl
  · rw [h.view_eq hne]

theorem Shadow.addLevel (h : Shadow side price ghost b e)
    (hadd : b.addLevel s level = .ok (c, b')) :
    ∃ c' e', e.addLevel s level = .ok (c', e') ∧
      Shadow side price (ghost ∧ b'.view side price = none) b' e' := by
  obtain ⟨c', e', hadd', hwf', -⟩ := addLevel_spec h.extended s level
  have hb := addLevel_view h.base hadd
  have he := addLevel_view h.extended hadd'
  refine ⟨c', e', hadd', (addLevel_ok h.base hadd).1, hwf', fun S q hne => ?_, fun hg => ?_, fun hg => ?_⟩
  · rw [he, hb, h.getD_eq, h.elsewhere S q hne]
  · obtain ⟨hghost, hnone⟩ := hg
    refine ⟨hnone, ?_⟩
    rw [hb] at hnone
    rw [he]
    split at hnone
    · cases hnone
    · rename_i hat
      rw [if_neg hat]
      exact (h.there hghost).2
  · rw [he, hb, h.getD_eq]
    split
    · rfl
    · rename_i hat
      by_cases hghost : ghost
      · have hnone := hb side price
        rw [if_neg hat, (h.there hghost).1] at hnone
        exact absurd ⟨hghost, hnone⟩ hg
      · exact h.same hghost

theorem Shadow.removeLevel (h : Shadow side price ghost b e)
    (hrem : b.removeLevel s level = .ok (c, b')) :
    ∃ c' e', e.removeLevel s level = .ok (c', e') ∧ Shadow side price ghost b' e' := by
  obtain ⟨x, hx, hle, hb⟩ := removeLevel_view h.base hrem
  have hne : ¬ (ghost ∧ s.book = side.book ∧ level.price = price) := by
    rintro ⟨hg, hat⟩
    rw [view_at b hat, (h.there hg).1] at hx
    cases hx
  have hx' : e.view s level.price = some x := (h.view_eq hne).trans hx
  obtain ⟨⟨c', e'⟩, hrem'⟩ := (removeLevel_returns_iff h.extended).mpr ⟨x, hx', hle⟩
  obtain ⟨y, hy, -, he⟩ := removeLevel_view h.extended hrem'
  rw [hx'] at hy
  cases hy
  have hlaid : ghost → ¬ (side.book = s.book ∧ price = level.price) := fun hg hat =>
    hne ⟨hg, hat.1.symm, hat.2.symm⟩
  refine ⟨c', e', hrem', (removeLevel_ok h.base hrem).1, (removeLevel_ok h.extended hrem').1,
    fun S q hout => ?_, fun hg => ?_, fun hg => ?_⟩
  · rw [he, hb, h.elsewhere S q hout]
  · rw [he, hb, if_neg (hlaid hg), if_neg (hlaid hg)]
    exact h.there hg
  · rw [he, hb, h.same hg]

theorem Shadow.removeLevel_base (h : Shadow side price ghost b e)
    (hne : ¬ (ghost ∧ s.book = side.book ∧ level.price = price))
    (hrem : e.removeLevel s level = .ok (c, e')) : ∃ c' b', b.removeLevel s level = .ok (c', b') := by
  obtain ⟨x, hx, hle, -⟩ := removeLevel_view h.extended hrem
  obtain ⟨⟨c', b'⟩, hrem'⟩ :=
    (removeLevel_returns_iff h.base).mpr ⟨x, (h.view_eq hne).symm.trans hx, hle⟩
  exact ⟨c', b', hrem'⟩

theorem Shadow.ghost_removed (h : Shadow side price ghost b e) (hg : ghost)
    (hat : s.book = side.book ∧ level.price = price)
    (hrem : e.removeLevel s level = .ok (c, e')) : level.qty = 0 ∧ e'.view side price = none := by
  obtain ⟨x, hx, hle, hview⟩ := removeLevel_view h.extended hrem
  rw [view_at e hat, (h.there hg).2] at hx
  cases hx
  have hzero : level.qty = 0 := UInt64.le_antisymm hle (UInt64.zero_le)
  refine ⟨hzero, ?_⟩
  rw [hview, if_pos ⟨hat.1.symm, hat.2.symm⟩, hzero]
  rfl

end Shadow

/-! ## The best levels -/

/-- The two books show the same best levels. -/
def SameBest (b e : Book) : Prop :=
  Prod.fst <$> e.bestBid = Prod.fst <$> b.bestBid ∧ Prod.fst <$> e.bestAsk = Prod.fst <$> b.bestAsk

/-- A level of zero at the price would not be seen: something better is there, or it looks like the
empty side that it is on. -/
def Hides (b : Book) (side : Side) (price : UInt32) : Prop :=
  (∃ q, (b.view side q).isSome ∧ side.book.Worse price q) ∨ ((∀ q, q ≠ price → b.view side q = none) ∧ price = 0)

section Best
variable {side : Side} {price : UInt32} {ghost : Prop} {b e : Book}

theorem sameBest_iff (hb : b.WellFormed) (he : e.WellFormed) :
    SameBest b e ↔ ∀ S, S = Side.Bid ∨ S = Side.Ask → e.top S = b.top S := by
  obtain ⟨hbid, hask⟩ := best_eq_top hb
  obtain ⟨hbid', hask'⟩ := best_eq_top he
  rw [SameBest, hbid, hask, hbid', hask']
  constructor
  · rintro ⟨h, h'⟩ S (rfl | rfl)
    · exact Except.ok.inj h
    · exact Except.ok.inj h'
  · intro h
    exact ⟨congrArg Except.ok (h _ (Or.inl rfl)), congrArg Except.ok (h _ (Or.inr rfl))⟩

theorem top_eq_of_view {S : Side} (hb : b.WellFormed) (he : e.WellFormed) (h : e.view S = b.view S) :
    e.top S = b.top S :=
  LevelMap.IsBest.unique (top_isBest he S) (h ▸ top_isBest hb S)

theorem Shadow.top_eq_iff (h : Shadow side price ghost b e) (hg : ghost) :
    e.top side = b.top side ↔ b.Hides side price := by
  obtain ⟨hnone, hzero⟩ := h.there hg
  have hview : ∀ q, q ≠ price → e.view side q = b.view side q := fun q hq =>
    h.elsewhere side q fun hat => hq hat.2
  rcases top_isBest h.base side with ⟨hempty, htop⟩ | ⟨htop, hbest⟩
  · have honly : ∀ q, (e.view side q).isSome → q = price := by
      intro q hq
      by_contra hne
      rw [hview q hne, hempty] at hq
      cases hq
    have hbests : e.top side = ⟨0, price⟩ := by
      refine LevelMap.IsBest.unique (top_isBest h.extended side) (Or.inr ⟨hzero, fun q hq => ?_⟩)
      exact Or.inl (honly q hq)
    rw [hbests, htop]
    constructor
    · intro he
      exact Or.inr ⟨fun q _ => by rw [hempty]; rfl, (Level.mk.inj he).2⟩
    · rintro (⟨q, hq, -⟩ | ⟨-, rfl⟩)
      · rw [hempty] at hq
        cases hq
      · rfl
  · have hne : (b.top side).price ≠ price := by
      intro hp
      rw [hp, hnone] at htop
      cases htop
    constructor
    · intro he
      rcases top_isBest h.extended side with ⟨hempty, -⟩ | ⟨-, hbest'⟩
      · rw [hempty] at hzero
        cases hzero
      · rcases hbest' price (by rw [hzero]; rfl) with hp | hp
        · rw [he] at hp
          exact absurd hp.symm hne
        · rw [he] at hp
          exact Or.inl ⟨_, by rw [htop]; rfl, hp⟩
    · rintro (⟨q, hq, hworse⟩ | ⟨hempty, -⟩)
      · refine LevelMap.IsBest.unique (top_isBest h.extended side) (Or.inr ⟨?_, fun q' hq' => ?_⟩)
        · rw [hview _ hne]
          exact htop
        · by_cases hp : q' = price
          · rw [hp]
            rcases hbest q hq with rfl | hw
            · exact Or.inr hworse
            · exact Or.inr (IsTrans.trans _ _ _ hworse hw)
          · rw [hview q' hp] at hq'
            exact hbest q' hq'
      · rw [hempty _ hne] at htop
        cases htop

theorem Shadow.hides_iff (h : Shadow side price ghost b e) :
    e.Hides side price ↔ b.Hides side price := by
  have hview : ∀ q, q ≠ price → e.view side q = b.view side q := fun q hq =>
    h.elsewhere side q fun hat => hq hat.2
  refine or_congr (exists_congr fun q => and_congr_left fun hworse => ?_) (and_congr_left fun _ => ?_)
  · rw [hview q]
    rintro rfl
    exact irrefl_of _ _ hworse
  · refine forall_congr' fun q => imp_congr_right fun hq => ?_
    rw [hview q hq]

theorem Shadow.sameBest_iff (h : Shadow side price ghost b e) :
    SameBest b e ↔ (ghost → b.Hides side price) := by
  rw [OrderBook.sameBest_iff h.base h.extended]
  by_cases hg : ghost
  · rw [forall_prop_of_true hg, ← h.top_eq_iff hg]
    constructor
    · intro htops
      rw [← top_congr e side.book_book, ← top_congr b side.book_book]
      exact htops side.book side.book_cases
    · intro htop S _
      by_cases hS : S.book = side.book
      · rw [top_congr e hS, top_congr b hS, htop]
      · refine top_eq_of_view h.base h.extended (funext fun q => ?_)
        exact h.elsewhere S q fun hat => hS hat.1
  · refine iff_of_true (fun S _ => top_eq_of_view h.base h.extended ?_) (fun hg' => absurd hg' hg)
    funext q
    by_cases hat : S.book = side.book ∧ q = price
    · rw [view_congr b hat.1, view_congr e hat.1, hat.2, h.same hg]
    · exact h.elsewhere S q hat

end Best

/-! ## Operations beside the order -/

/-- An operation that returned names no id that was live neither before nor after it. -/
theorem OrdersStep.notMem_ids {m m' : Orders} {op : Op} (h : OrdersStep m op m') {id : UInt64}
    (hm : id ∉ m) (hm' : id ∉ m') : id ∉ op.ids := by
  have hfound : ∀ {oid : UInt64} {o : Order}, m.lookup oid = some o → id ≠ oid := by
    rintro oid o hfind rfl
    exact hm (Finmap.mem_of_lookup_eq_some hfind)
  have hplaced : ∀ {m₀ : Orders} {oid : UInt64} {o : Order}, id ∉ m₀.emplace oid o → id ≠ oid := by
    rintro m₀ oid o hnot rfl
    refine hnot ?_
    unfold Orders.emplace
    split
    · assumption
    · exact Finmap.mem_insert.mpr (Or.inl rfl)
  rw [Op.ids.eq_def]
  cases h with
  | addOrder => exact fun h => hplaced hm' (List.mem_singleton.mp h)
  | cancelOrder hfind => exact fun h => hfound hfind (List.mem_singleton.mp h)
  | executeOrder hfind => exact fun h => hfound hfind (List.mem_singleton.mp h)
  | replaceOrder newOrderId qty price hfind =>
    intro h
    rcases List.mem_cons.mp h with h | h
    · exact hfound hfind h
    · exact hplaced hm' (List.mem_singleton.mp h)
  | deleteOrder hfind => exact fun h => hfound hfind (List.mem_singleton.mp h)

theorem effect_insert {op : Op} {id : UInt64} (hid : id ∉ op.ids) (m : Orders) (z : Order) :
    op.effect (m.insert id z) = (op.effect m).insert id z := by
  have hagree : ∀ y ∈ op.ids, (m.insert id z).lookup y = m.lookup y := by
    intro y hy
    refine Finmap.lookup_insert_of_ne m ?_
    rintro rfl
    exact hid hy
  refine Finmap.ext_lookup fun x => ?_
  by_cases hx : x ∈ op.ids
  · have hne : x ≠ id := by
      rintro rfl
      exact hid hx
    rw [Finmap.lookup_insert_of_ne _ hne, Op.effect_congr hagree hx]
  · rw [Op.effect_frame hx]
    by_cases hne : x = id
    · rw [hne, Finmap.lookup_insert, Finmap.lookup_insert]
    · rw [Finmap.lookup_insert_of_ne _ hne, Finmap.lookup_insert_of_ne _ hne, Op.effect_frame hx]

section Operations
variable {side s : Side} {price : UInt32} {ghost : Prop} {b b' e e' : Book} {c : BestLvlChange}
  {level : Level}

theorem Shadow.reduceOrder (h : Shadow side price ghost b e) {notFound tooMuch : String}
    {orderId : UInt64} {qty : UInt32} (hsame : e.ordersMap.lookup orderId = b.ordersMap.lookup orderId)
    (happly : OrderBook.reduceOrder notFound tooMuch b orderId qty = .ok (c, b')) :
    ∃ c' e', OrderBook.reduceOrder notFound tooMuch e orderId qty = .ok (c', e') ∧
      Shadow side price ghost b' e' := by
  obtain ⟨order, b₁, hfind, hqty, hrem, rfl⟩ := reduceOrder_ok happly
  obtain ⟨c', e₁, hrem', h'⟩ := h.removeLevel hrem
  have heq := reduceOrder_eq notFound tooMuch (hsame.trans hfind) hqty
  rw [hrem', ok_bind] at heq
  exact ⟨c', _, heq, h'.setOrders _ _⟩

theorem Shadow.removed (h : Shadow side price ghost b e) :
    Shadow side price (ghost ∧ b.view side price = none) b e :=
  h.congr ⟨fun hg => ⟨hg, (h.there hg).1⟩, And.left⟩

theorem Shadow.apply (h : Shadow side price ghost b e) {op : Op}
    (hsame : ∀ y ∈ op.ids, e.ordersMap.lookup y = b.ordersMap.lookup y)
    (happly : b.apply op = .ok (c, b')) : ∃ c' e', e.apply op = .ok (c', e') ∧
      Shadow side price (ghost ∧ b'.view side price = none) b' e' := by
  cases op with
  | addOrder orderId s qty p =>
    exact (h.setOrders _ _).addLevel happly
  | cancelOrder orderId qty =>
    obtain ⟨c', e', happly', h'⟩ := h.reduceOrder (hsame orderId (by simp [Op.ids])) happly
    exact ⟨c', e', happly', h'.removed⟩
  | executeOrder orderId qty =>
    obtain ⟨c', e', happly', h'⟩ := h.reduceOrder (hsame orderId (by simp [Op.ids])) happly
    exact ⟨c', e', happly', h'.removed⟩
  | replaceOrder orderId newOrderId qty p =>
    obtain ⟨order, rem, b₁, add, b₂, hfind, hrem, hadd, -, rfl⟩ := replaceOrder_ok happly
    obtain ⟨rem', e₁, hrem', h₁⟩ := h.removeLevel hrem
    obtain ⟨add', e₂, hadd', h₂⟩ := h₁.addLevel hadd
    have hfind' := (hsame orderId (by simp [Op.ids])).trans hfind
    have heq := @replaceOrder_eq _ _ e orderId newOrderId order qty p hfind'
    rw [hrem', ok_bind, hadd', ok_bind] at heq
    exact ⟨_, _, heq, h₂.setOrders _ _⟩
  | deleteOrder orderId =>
    obtain ⟨order, b₁, hfind, hrem, rfl⟩ := deleteOrder_ok happly
    obtain ⟨c', e₁, hrem', h'⟩ := h.removeLevel hrem
    have heq := deleteOrder_eq ((hsame orderId (by simp [Op.ids])).trans hfind)
    rw [hrem', ok_bind] at heq
    exact ⟨c', _, heq, (h'.setOrders _ _).removed⟩

/-- The other way round: an operation that leaves a level where the ghost was. -/
theorem Shadow.apply_base (h : Shadow side price ghost b e) {op : Op} (hpos : Positive e.ordersMap)
    (hsame : b.ordersMap = e.ordersMap) (happly : e.apply op = .ok (c, e'))
    (hstay : ghost → e'.view side price ≠ none) : ∃ c' b', b.apply op = .ok (c', b') := by
  have hreduce : ∀ {notFound tooMuch : String} {orderId : UInt64} {qty : UInt32},
      OrderBook.reduceOrder notFound tooMuch e orderId qty = .ok (c, e') →
      ∃ c' b', OrderBook.reduceOrder notFound tooMuch b orderId qty = .ok (c', b') := by
    intro notFound tooMuch orderId qty hred
    obtain ⟨order, e₁, hfind, hqty, hrem, rfl⟩ := reduceOrder_ok hred
    have hne : ¬ (ghost ∧ order.side.book = side.book ∧ order.price = price) := by
      rintro ⟨hg, hat⟩
      exact hstay hg (h.ghost_removed hg hat hrem).2
    obtain ⟨c', b₁, hrem'⟩ := h.removeLevel_base hne hrem
    have heq := reduceOrder_eq notFound tooMuch (hsame ▸ hfind) hqty
    rw [hrem', ok_bind] at heq
    exact ⟨c', _, heq⟩
  cases op with
  | addOrder orderId s qty p =>
    obtain ⟨c', b', hadd, -⟩ := addLevel_spec (h.setOrders (b.ordersMap.emplace orderId ⟨qty, p, s⟩)
      e.ordersMap).base s ⟨qty.toUInt64, p⟩
    exact ⟨c', b', hadd⟩
  | cancelOrder orderId qty => exact hreduce happly
  | executeOrder orderId qty => exact hreduce happly
  | replaceOrder orderId newOrderId qty p =>
    obtain ⟨order, rem, e₁, add, e₂, hfind, hrem, -⟩ := replaceOrder_ok happly
    have hne : ¬ (ghost ∧ order.side.book = side.book ∧ order.price = price) := by
      rintro ⟨hg, hat⟩
      have hqty : order.qty.toUInt64 = 0 := (h.ghost_removed hg hat hrem).1
      have hnat : order.qty.toNat = 0 := by rw [← UInt32.toNat_toUInt64, hqty]; rfl
      exact absurd (UInt32.lt_iff_toNat_lt.mp (hpos orderId order hfind)) (by rw [hnat]; decide)
    obtain ⟨rem', b₁, hrem'⟩ := h.removeLevel_base hne hrem
    obtain ⟨add', b₂, hadd', -⟩ :=
      addLevel_spec (removeLevel_ok h.base hrem').1 order.side ⟨qty.toUInt64, p⟩
    have heq := @replaceOrder_eq _ _ b orderId newOrderId order qty p (hsame ▸ hfind)
    rw [hrem', ok_bind, hadd', ok_bind] at heq
    exact ⟨_, _, heq⟩
  | deleteOrder orderId =>
    obtain ⟨order, e₁, hfind, hrem, rfl⟩ := deleteOrder_ok happly
    have hne : ¬ (ghost ∧ order.side.book = side.book ∧ order.price = price) := by
      rintro ⟨hg, hat⟩
      exact hstay hg (h.ghost_removed hg hat hrem).2
    obtain ⟨c', b₁, hrem'⟩ := h.removeLevel_base hne hrem
    have heq := deleteOrder_eq (b := b) (hsame ▸ hfind)
    rw [hrem', ok_bind] at heq
    exact ⟨c', _, heq⟩

theorem removeLevel_view_none (h : b.WellFormed) (hrem : b.removeLevel s level = .ok (c, b'))
    (hnone : b.view side price = none) : b'.view side price = none := by
  obtain ⟨x, hx, -, hview⟩ := removeLevel_view h hrem
  have hne : ¬ (side.book = s.book ∧ price = level.price) := by
    intro hat
    rw [view_at b hat, hx] at hnone
    cases hnone
  rw [hview, if_neg hne, hnone]

theorem addLevel_view_ne_zero {qty p : UInt32} (h : b.WellFormed) (hqty : 0 < qty)
    (hadd : b.addLevel s ⟨qty.toUInt64, p⟩ = .ok (c, b')) (hnone : b.view side price = none) :
    b'.view side price ≠ some 0 := by
  rw [addLevel_view h hadd, hnone]
  split
  · intro hzero
    have hnat := congrArg UInt64.toNat (Option.some.inj hzero)
    have hpos := UInt32.lt_iff_toNat_lt.mp hqty
    rw [Option.getD_none, UInt64.zero_add, UInt32.toNat_toUInt64] at hnat
    exact absurd hnat (Nat.ne_of_gt hpos)
  · exact fun hzero => by cases hzero

theorem apply_view_ne_zero (h : b.WellFormed) {op : Op} (hfeed : op.Feed b.ordersMap)
    (happly : b.apply op = .ok (c, b')) (hnone : b.view side price = none) :
    b'.view side price ≠ some 0 := by
  cases op with
  | addOrder orderId s qty p =>
    have hwf : WellFormed { b with ordersMap := b.ordersMap.emplace orderId ⟨qty, p, s⟩ } :=
      ⟨h.bid, h.ask⟩
    exact addLevel_view_ne_zero hwf hfeed.1 happly hnone
  | cancelOrder orderId qty | executeOrder orderId qty =>
    obtain ⟨order, b₁, -, -, hrem, rfl⟩ := reduceOrder_ok happly
    have hleft : b₁.view side price ≠ some 0 := by
      rw [removeLevel_view_none h hrem hnone]
      exact fun hzero => by cases hzero
    exact hleft
  | replaceOrder orderId newOrderId qty p =>
    obtain ⟨order, rem, b₁, add, b₂, -, hrem, hadd, -, rfl⟩ := replaceOrder_ok happly
    have hleft := addLevel_view_ne_zero (removeLevel_ok h hrem).1 hfeed.1 hadd
      (removeLevel_view_none h hrem hnone)
    exact hleft
  | deleteOrder orderId =>
    obtain ⟨order, b₁, -, hrem, rfl⟩ := deleteOrder_ok happly
    have hleft : b₁.view side price ≠ some 0 := by
      rw [removeLevel_view_none h hrem hnone]
      exact fun hzero => by cases hzero
    exact hleft

end Operations

end OrderBook
end ItchIngestion.OB
