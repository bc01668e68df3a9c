import ItchIngestion.Book.OrderBook
import ItchIngestion.Levels.VectorLevelBSearchSplit

/-! # The two sides of a book as level maps

The book of the program is `OrderBook<VectorLevelBSearchSplit>`. `view` and `top` read its two
stores side by side; `addLevel_spec` and `removeLevel_spec` lift the specifications of the stores to
them, with a side byte other than `B` counting as an ask. `Announces` is what the returned change
tells a listener who only knows the best levels before the call.
-/
namespace ItchIngestion.OB
set_option autoImplicit false

/-- The book that the engine uses. -/
abbrev Book := OrderBook VectorLevelBSearchSplit

/-- The side of the book on which an order of side `side` rests. -/
def Side.book (side : Side) : Side := if side = Side.Bid then Side.Bid else Side.Ask

@[simp] theorem Side.book_bid : Side.Bid.book = Side.Bid := rfl

@[simp] theorem Side.book_ask : Side.Ask.book = Side.Ask := rfl

@[simp] theorem Side.book_eq_bid {side : Side} : side.book = Side.Bid ↔ side = Side.Bid := by
  unfold Side.book
  split <;> simp_all

@[simp] theorem Side.book_eq_ask {side : Side} : side.book = Side.Ask ↔ side ≠ Side.Bid := by
  unfold Side.book
  split <;> simp_all

@[simp] theorem Side.book_ne_none (side : Side) : side.book ≠ Side.None := by
  unfold Side.book
  split <;> simp

namespace OrderBook

/-- The levels of a side, as a map. -/
def view (b : Book) (S : Side) : LevelMap :=
  if S = Side.Bid then b.bidLevels.view else b.askLevels.view

def top (b : Book) (S : Side) : Level :=
  if S = Side.Bid then b.bidLevels.top else b.askLevels.top

theorem eq_bid_congr {S S' : Side} (h : S.book = S'.book) : S = Side.Bid ↔ S' = Side.Bid := by
  rw [← Side.book_eq_bid, h, Side.book_eq_bid]

/-- What a book shows for a side depends on the store only that the side picks. -/
theorem view_congr (b : Book) {S S' : Side} (h : S.book = S'.book) : b.view S = b.view S' :=
  if_congr (eq_bid_congr h) rfl rfl

theorem top_congr (b : Book) {S S' : Side} (h : S.book = S'.book) : b.top S = b.top S' :=
  if_congr (eq_bid_congr h) rfl rfl

theorem view_at (b : Book) {S s : Side} {q p : UInt32} (h : S.book = s.book ∧ q = p) :
    b.view S q = b.view s p := by
  rw [view_congr b h.1, h.2]

/-- Both stores are well formed. -/
structure WellFormed (b : Book) : Prop where
  bid : b.bidLevels.WellFormed
  ask : b.askLevels.WellFormed

theorem empty_wellFormed : WellFormed empty :=
  ⟨VectorLevelBSearchSplit.init_wellFormed, VectorLevelBSearchSplit.init_wellFormed⟩

theorem eq_of_views {b b' : Book} (h : b.WellFormed) (h' : b'.WellFormed)
    (hm : b.ordersMap = b'.ordersMap) (hview : ∀ S p, b.view S p = b'.view S p) : b = b' := by
  obtain ⟨m, bid, ask⟩ := b
  obtain ⟨m', bid', ask'⟩ := b'
  obtain rfl : bid = bid' := VectorLevelBSearchSplit.eq_of_view h.bid h'.bid (hview Side.Bid)
  obtain rfl : ask = ask' := VectorLevelBSearchSplit.eq_of_view h.ask h'.ask (hview Side.Ask)
  obtain rfl : m = m' := hm
  rfl

/-- The change names the best level that moved, and no other one moved. -/
structure Announces (b b' : Book) (side : Side) (change : BestLvlChange) : Prop where
  side_eq : change.side = Side.None ∨ change.side = side.book
  top_eq : ∀ S, S = Side.Bid ∨ S = Side.Ask →
    b'.top S = if change.side = S then ⟨change.qty, change.price⟩ else b.top S

theorem announces_of_reports {b b' : Book} {side : Side} {change : BestLvlChange}
    (h : Reports side.book (b.top side.book) (b'.top side.book) change)
    (hother : ∀ S, S = Side.Bid ∨ S = Side.Ask → S ≠ side.book → b'.top S = b.top S) :
    Announces b b' side change := by
  cases h with
  | inl h =>
    obtain ⟨rfl, htop⟩ := h
    refine ⟨Or.inl rfl, fun S hS => ?_⟩
    have hne : BestLvlChange.none.side ≠ S := (Side.ne_none hS).symm
    rw [if_neg hne]
    by_cases hs : S = side.book
    · rw [hs, htop]
    · exact hother S hS hs
  | inr h =>
    subst h
    refine ⟨Or.inr rfl, fun S hS => ?_⟩
    by_cases hs : side.book = S
    · rw [if_pos hs, ← hs]
    · rw [if_neg hs]
      exact hother S hS (Ne.symm hs)

/-! ## The stores of the book -/

section Replace
variable (b : Book) (S : Side)

theorem view_setBid (l : VectorLevelBSearchSplit Side.Bid) :
    view { b with bidLevels := l } S = if S.book = Side.Bid then l.view else b.view S := by
  by_cases hS : S = Side.Bid <;> simp [view, hS]

theorem view_setAsk (l : VectorLevelBSearchSplit Side.Ask) :
    view { b with askLevels := l } S = if S.book = Side.Ask then l.view else b.view S := by
  by_cases hS : S = Side.Bid <;> simp [view, hS]

theorem top_setBid (l : VectorLevelBSearchSplit Side.Bid) :
    top { b with bidLevels := l } S = if S.book = Side.Bid then l.top else b.top S := by
  by_cases hS : S = Side.Bid <;> simp [top, hS]

theorem top_setAsk (l : VectorLevelBSearchSplit Side.Ask) :
    top { b with askLevels := l } S = if S.book = Side.Ask then l.top else b.top S := by
  by_cases hS : S = Side.Bid <;> simp [top, hS]

end Replace

theorem announces_bid {b : Book} {l : VectorLevelBSearchSplit Side.Bid} {change : BestLvlChange}
    (h : Reports Side.Bid b.bidLevels.top l.top change) :
    Announces b { b with bidLevels := l } Side.Bid change := by
  apply announces_of_reports
  · simpa [top] using h
  · intro S _ hne
    rw [top_setBid, if_neg (mt Side.book_eq_bid.mp hne)]

theorem announces_ask {b : Book} {l : VectorLevelBSearchSplit Side.Ask} {side : Side}
    {change : BestLvlChange} (hside : side ≠ Side.Bid)
    (h : Reports Side.Ask b.askLevels.top l.top change) :
    Announces b { b with askLevels := l } side change := by
  have hbook : side.book = Side.Ask := Side.book_eq_ask.mpr hside
  apply announces_of_reports
  · rw [hbook]
    simpa [top] using h
  · intro S hS hne
    rw [hbook] at hne
    rw [top_setAsk, if_neg (fun e => Side.book_eq_ask.mp e (hS.resolve_right hne))]

section Pick
variable {side : Side} (b : Book) (level : Level)

theorem addLevel_bid (hside : side = Side.Bid) : b.addLevel side level =
    b.bidLevels.add level >>= fun r => .ok (r.1, { b with bidLevels := r.2 }) := if_pos hside

theorem addLevel_ask (hside : side ≠ Side.Bid) : b.addLevel side level =
    b.askLevels.add level >>= fun r => .ok (r.1, { b with askLevels := r.2 }) := if_neg hside

theorem removeLevel_bid (hside : side = Side.Bid) : b.removeLevel side level =
    b.bidLevels.remove level >>= fun r => .ok (r.1, { b with bidLevels := r.2 }) := if_pos hside

theorem removeLevel_ask (hside : side ≠ Side.Bid) : b.removeLevel side level =
    b.askLevels.remove level >>= fun r => .ok (r.1, { b with askLevels := r.2 }) := if_neg hside

end Pick

theorem addLevel_spec {b : Book} (h : b.WellFormed) (side : Side) (level : Level) :
    ∃ change b', b.addLevel side level = .ok (change, b') ∧ b'.WellFormed ∧
      (∀ S, b'.view S = if S.book = side.book then (b.view S).add level else b.view S) ∧
      Announces b b' side change := by
  by_cases hside : side = Side.Bid
  · subst hside
    obtain ⟨change, l, hadd, hwf, hview, hrep⟩ := VectorLevelBSearchSplit.add_spec h.bid level
    refine ⟨change, { b with bidLevels := l }, by rw [addLevel_bid b level rfl, hadd, ok_bind],
      ⟨hwf, h.ask⟩, ?_, announces_bid hrep⟩
    intro S
    rw [view_setBid, hview]
    by_cases hS : S = Side.Bid <;> simp [view, hS]
  · obtain ⟨change, l, hadd, hwf, hview, hrep⟩ := VectorLevelBSearchSplit.add_spec h.ask level
    refine ⟨change, { b with askLevels := l }, by rw [addLevel_ask b level hside, hadd, ok_bind],
      ⟨h.bid, hwf⟩, ?_, announces_ask hside hrep⟩
    intro S
    rw [view_setAsk, hview, Side.book_eq_ask.mpr hside]
    by_cases hS : S = Side.Bid <;> simp [view, hS]

theorem removeLevel_spec {b : Book} (h : b.WellFormed) (side : Side) (level : Level) :
    (∃ fault, (b.view side).remove level = .error fault ∧ b.removeLevel side level = .error fault) ∨
      ∃ change b' m, b.removeLevel side level = .ok (change, b') ∧ b'.WellFormed ∧
        (b.view side).remove level = .ok m ∧
        (∀ S, b'.view S = if S.book = side.book then m else b.view S) ∧
        Announces b b' side change := by
  by_cases hside : side = Side.Bid
  · subst hside
    have hrun := removeLevel_bid b level rfl
    cases VectorLevelBSearchSplit.remove_spec h.bid level with
    | inl hfault =>
      obtain ⟨fault, hm, hl⟩ := hfault
      exact Or.inl ⟨fault, hm, by rw [hrun, hl, error_bind]⟩
    | inr hok =>
      obtain ⟨change, l, hrem, hwf, hview, hrep⟩ := hok
      exact Or.inr ⟨change, { b with bidLevels := l }, l.view, by rw [hrun, hrem, ok_bind],
        ⟨hwf, h.ask⟩, hview, fun S => view_setBid b S l, announces_bid hrep⟩
  · have hrun := removeLevel_ask b level hside
    have hv : b.view side = b.askLevels.view := if_neg hside
    rw [hv]
    cases VectorLevelBSearchSplit.remove_spec h.ask level with
    | inl hfault =>
      obtain ⟨fault, hm, hl⟩ := hfault
      exact Or.inl ⟨fault, hm, by rw [hrun, hl, error_bind]⟩
    | inr hok =>
      obtain ⟨change, l, hrem, hwf, hview, hrep⟩ := hok
      refine Or.inr ⟨change, { b with askLevels := l }, l.view, by rw [hrun, hrem, ok_bind],
        ⟨h.bid, hwf⟩, hview, fun S => ?_, announces_ask hside hrep⟩
      rw [view_setAsk, Side.book_eq_ask.mpr hside]

/-! ## Operations -/

section Operations
variable {b b' : Book} {side : Side} {level : Level} {change : BestLvlChange}

theorem addLevel_ok (h : b.WellFormed) (hrun : b.addLevel side level = .ok (change, b')) :
    b'.WellFormed ∧
      (∀ S, b'.view S = if S.book = side.book then (b.view S).add level else b.view S) ∧
      Announces b b' side change := by
  obtain ⟨c, b₁, hadd, hspec⟩ := addLevel_spec h side level
  rw [hrun] at hadd
  cases hadd
  exact hspec

theorem removeLevel_ok (h : b.WellFormed) (hrun : b.removeLevel side level = .ok (change, b')) :
    b'.WellFormed ∧ ∃ m, (b.view side).remove level = .ok m ∧
      (∀ S, b'.view S = if S.book = side.book then m else b.view S) ∧
      Announces b b' side change := by
  cases removeLevel_spec h side level with
  | inl hfault =>
    obtain ⟨fault, -, hl⟩ := hfault
    rw [hrun] at hl
    cases hl
  | inr hok =>
    obtain ⟨c, b₁, m, hrem, hwf, hspec⟩ := hok
    rw [hrun] at hrem
    cases hrem
    exact ⟨hwf, m, hspec⟩

theorem addLevel_view (h : b.WellFormed) (hadd : b.addLevel side level = .ok (change, b')) (S : Side)
    (q : UInt32) : b'.view S q =
      if S.book = side.book ∧ q = level.price then some ((b.view S q).getD 0 + level.qty)
      else b.view S q := by
  obtain ⟨-, hview, -⟩ := addLevel_ok h hadd
  rw [hview]
  by_cases hS : S.book = side.book
  · rw [if_pos hS, LevelMap.add]
    by_cases hq : q = level.price
    · rw [if_pos ⟨hS, hq⟩, hq, Function.update_self]
    · rw [if_neg (fun h => hq h.2), Function.update_of_ne hq]
  · rw [if_neg hS, if_neg (fun h => hS h.1)]

theorem removeLevel_view (h : b.WellFormed) (hrem : b.removeLevel side level = .ok (change, b')) :
    ∃ x, b.view side level.price = some x ∧ level.qty ≤ x ∧ ∀ S q, b'.view S q =
      if S.book = side.book ∧ q = level.price then
        (if x - level.qty = 0 then none else some (x - level.qty))
      else b.view S q := by
  obtain ⟨-, m, hm, hview, -⟩ := removeLevel_ok h hrem
  obtain ⟨x, hx, hle, rfl⟩ := LevelMap.remove_eq_ok.mp hm
  refine ⟨x, hx, hle, fun S q => ?_⟩
  generalize (if x - level.qty = 0 then none else some (x - level.qty)) = left at hview ⊢
  rw [hview]
  by_cases hS : S.book = side.book
  · rw [if_pos hS]
    by_cases hq : q = level.price
    · rw [if_pos ⟨hS, hq⟩, hq, Function.update_self]
    · rw [if_neg (fun h => hq h.2), Function.update_of_ne hq, view_congr b hS]
  · rw [if_neg hS, if_neg (fun h => hS h.1)]

/-- Two announcements on one side merge as `replace_order` merges them. -/
theorem Announces.merge {b₀ b₁ b₂ : Book} {rem add : BestLvlChange}
    (hrem : Announces b₀ b₁ side rem) (hadd : Announces b₁ b₂ side add) :
    Announces b₀ b₂ side (if add.side ≠ Side.None then add else rem) := by
  by_cases hnone : add.side = Side.None
  · rw [if_neg (not_not.mpr hnone)]
    refine ⟨hrem.side_eq, fun S hS => ?_⟩
    have hne : add.side ≠ S := by
      rw [hnone]
      exact (Side.ne_none hS).symm
    rw [hadd.top_eq S hS, if_neg hne, hrem.top_eq S hS]
  · rw [if_pos hnone]
    refine ⟨hadd.side_eq, fun S hS => ?_⟩
    rw [hadd.top_eq S hS]
    by_cases hs : add.side = S
    · rw [if_pos hs, if_pos hs]
    · -- the removal touched the side of the addition, so it cannot have moved `S` either
      have hside : add.side = side.book := hadd.side_eq.resolve_left hnone
      have hne : rem.side ≠ S := by
        intro he
        cases hrem.side_eq with
        | inl h => exact Side.ne_none hS (he.symm.trans h)
        | inr h => exact hs (hside.trans (h.symm.trans he))
      rw [if_neg hs, if_neg hs, hrem.top_eq S hS, if_neg hne]

/-- **Every operation announces the best levels it moves.** -/
theorem apply_announces (h : b.WellFormed) {op : Op} (happly : b.apply op = .ok (change, b')) :
    b'.WellFormed ∧ ∃ side, Announces b b' side change := by
  cases op with
  | addOrder orderId side qty price =>
    have hwf₀ : WellFormed { b with ordersMap := b.ordersMap.emplace orderId ⟨qty, price, side⟩ } :=
      ⟨h.bid, h.ask⟩
    obtain ⟨hwf, -, hann⟩ := addLevel_ok hwf₀ happly
    exact ⟨hwf, side, hann.side_eq, hann.top_eq⟩
  | cancelOrder orderId qty =>
    obtain ⟨order, b₁, -, -, hrem, rfl⟩ := reduceOrder_ok happly
    obtain ⟨hwf, m, -, -, hann⟩ := removeLevel_ok h hrem
    exact ⟨⟨hwf.bid, hwf.ask⟩, order.side, hann.side_eq, hann.top_eq⟩
  | executeOrder orderId qty =>
    obtain ⟨order, b₁, -, -, hrem, rfl⟩ := reduceOrder_ok happly
    obtain ⟨hwf, m, -, -, hann⟩ := removeLevel_ok h hrem
    exact ⟨⟨hwf.bid, hwf.ask⟩, order.side, hann.side_eq, hann.top_eq⟩
  | replaceOrder orderId newOrderId qty price =>
    obtain ⟨order, rem, b₁, add, b₂, -, hrem, hadd, rfl, rfl⟩ := replaceOrder_ok happly
    obtain ⟨hwf₁, m, -, -, hann₁⟩ := removeLevel_ok h hrem
    obtain ⟨hwf₂, -, hann₂⟩ := addLevel_ok hwf₁ hadd
    have hann := hann₁.merge hann₂
    exact ⟨⟨hwf₂.bid, hwf₂.ask⟩, order.side, hann.side_eq, hann.top_eq⟩
  | deleteOrder orderId =>
    obtain ⟨order, b₁, -, hrem, rfl⟩ := deleteOrder_ok happly
    obtain ⟨hwf, m, -, -, hann⟩ := removeLevel_ok h hrem
    exact ⟨⟨hwf.bid, hwf.ask⟩, order.side, hann.side_eq, hann.top_eq⟩

/-- A removal returns exactly where the level can give the quantity. -/
theorem removeLevel_returns_iff (h : b.WellFormed) :
    (∃ r, b.removeLevel side level = .ok r) ↔
      ∃ q, b.view side level.price = some q ∧ level.qty ≤ q := by
  constructor
  · rintro ⟨⟨change, b'⟩, hrun⟩
    obtain ⟨q, hq, hle, -⟩ := removeLevel_view h hrun
    exact ⟨q, hq, hle⟩
  · rintro ⟨q, hq, hle⟩
    cases removeLevel_spec h side level with
    | inl hfault =>
      obtain ⟨fault, hm, -⟩ := hfault
      rw [LevelMap.remove_eq_ok.mpr ⟨q, hq, hle, rfl⟩] at hm
      cases hm
    | inr hok =>
      obtain ⟨change, b₁, m, hrun, -⟩ := hok
      exact ⟨_, hrun⟩

/-! ## Failures -/

theorem addLevel_ne_error (h : b.WellFormed) (fault : Fault) : b.addLevel side level ≠ .error fault := by
  obtain ⟨c, b₁, hadd, -⟩ := addLevel_spec h side level
  rw [hadd]
  exact fun e => by cases e

theorem removeLevel_error {fault : Fault} (h : b.WellFormed)
    (hrun : b.removeLevel side level = .error fault) : ∃ message, fault = .unexpected message := by
  rcases removeLevel_spec h side level with ⟨fault', hm, hrem⟩ | ⟨c, b₁, m, hrem, -⟩
  · rw [hrun] at hrem
    cases hrem
    exact LevelMap.remove_error hm
  · rw [hrun] at hrem
    cases hrem

theorem findOrder_error {orderId : UInt64} {message : String} {fault : Fault}
    (hrun : b.findOrder orderId message = .error fault) : fault = .unexpected message := by
  unfold findOrder at hrun
  split at hrun
  · cases hrun
  · cases hrun
    rfl

theorem reduceOrder_error {notFound tooMuch : String} {orderId : UInt64} {qty : UInt32}
    {fault : Fault} (h : b.WellFormed)
    (hrun : reduceOrder notFound tooMuch b orderId qty = .error fault) :
    ∃ message, fault = .unexpected message := by
  rcases bind_eq_error.mp hrun with hfind | ⟨order, -, hrun⟩
  · exact ⟨_, findOrder_error hfind⟩
  rcases bind_eq_error.mp hrun with hqty | ⟨_, -, hrun⟩
  · exact ⟨_, unexpected_eq_error hqty⟩
  rcases bind_eq_error.mp hrun with hrem | ⟨_, -, hrun⟩
  · exact removeLevel_error h hrem
  · cases hrun

/-- **The book fails in `UNEXPECTED` only.** -/
theorem apply_error (h : b.WellFormed) {op : Op} {fault : Fault} (hrun : b.apply op = .error fault) :
    ∃ message, fault = .unexpected message := by
  cases op with
  | addOrder orderId side qty price =>
    have hwf : WellFormed { b with ordersMap := b.ordersMap.emplace orderId ⟨qty, price, side⟩ } :=
      ⟨h.bid, h.ask⟩
    exact absurd hrun (addLevel_ne_error hwf fault)
  | cancelOrder orderId qty => exact reduceOrder_error h hrun
  | executeOrder orderId qty => exact reduceOrder_error h hrun
  | replaceOrder orderId newOrderId qty price =>
    rcases bind_eq_error.mp hrun with hfind | ⟨order, -, hrun⟩
    · exact ⟨_, findOrder_error hfind⟩
    rcases bind_eq_error.mp hrun with hrem | ⟨⟨rem, b₁⟩, hrem, hrun⟩
    · exact removeLevel_error h hrem
    rcases bind_eq_error.mp hrun with hadd | ⟨⟨add, b₂⟩, -, hrun⟩
    · exact absurd hadd (addLevel_ne_error (removeLevel_ok h hrem).1 fault)
    · dsimp only at hrun
      split at hrun <;> cases hrun
  | deleteOrder orderId =>
    rcases bind_eq_error.mp hrun with hfind | ⟨order, -, hrun⟩
    · exact ⟨_, findOrder_error hfind⟩
    rcases bind_eq_error.mp hrun with hrem | ⟨_, -, hrun⟩
    · exact removeLevel_error h hrem
    · cases hrun

theorem best_eq_top (h : b.WellFormed) :
    b.bestBid = .ok (b.top Side.Bid, b) ∧ b.bestAsk = .ok (b.top Side.Ask, b) := by
  constructor
  · have hbest := VectorLevelBSearchSplit.best_eq_top h.bid.length
    show ((b.bidLevels.best >>= fun level => .ok (level, b.bidLevels)) >>= fun r =>
      .ok (r.1, { b with bidLevels := r.2 })) = _
    rw [hbest]
    rfl
  · have hbest := VectorLevelBSearchSplit.best_eq_top h.ask.length
    show ((b.askLevels.best >>= fun level => .ok (level, b.askLevels)) >>= fun r =>
      .ok (r.1, { b with askLevels := r.2 })) = _
    rw [hbest]
    rfl

end Operations

end OrderBook

end ItchIngestion.OB
