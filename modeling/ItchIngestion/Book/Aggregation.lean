import ItchIngestion.Book.Views

/-! # The levels are the aggregation of the live orders

Against a feed that keeps its promises (`Op.Feed`: positive shares, no id introduced while it is
live) the two sides of a book show, at every price, the sum of what remains of the live orders
there. `Shows b t` says that the sides of `b` are the table of sums `t`; the two store operations
move such a table exactly (`addLevel_shows`, `removeLevel_shows`), so each book operation moves
`liveQty` of the map of orders (`apply_valid`), and a run does (`FeedRun.aggregates`).

With fewer than `2 ^ 32` live orders of at most `2 ^ 32 - 1` shares no sum reaches `2 ^ 64`.
-/
namespace ItchIngestion.OB
open Library
set_option autoImplicit false

/-! ## Sums over the live orders -/

/-- What an order contributes to the level of side `S` at price `p`. -/
def shares (S : Side) (p : UInt32) (o : Order) : ℕ :=
  if o.side.book = S ∧ o.price = p then o.qty.toNat else 0

/-- The shares of the live orders on side `S` at price `p`. -/
def liveQty (m : Orders) (S : Side) (p : UInt32) : ℕ := total m (shares S p)

/-- Some live order rests on side `S` at price `p`. -/
def LiveAt (m : Orders) (S : Side) (p : UInt32) : Prop :=
  ∃ id o, m.lookup id = some o ∧ o.side.book = S ∧ o.price = p

/-- Every live order has shares left. -/
def Positive (m : Orders) : Prop := ∀ id o, m.lookup id = some o → 0 < o.qty

theorem liveQty_lt {m : Orders} (hfew : size m ≤ 2 ^ 32) (S : Side) (p : UInt32) :
    liveQty m S p < 2 ^ 64 := by
  have hle : liveQty m S p ≤ size m * (2 ^ 32 - 1) := by
    apply total_le_size
    intro o
    have := o.qty.toNat_lt
    unfold shares
    split <;> omega
  omega

theorem liveQty_pos_iff {m : Orders} (hpos : Positive m) (S : Side) (p : UInt32) :
    0 < liveQty m S p ↔ LiveAt m S p := by
  constructor
  · intro h
    obtain ⟨id, o, hfind, hw⟩ := exists_of_total_pos h
    unfold shares at hw
    split at hw
    · rename_i hat
      exact ⟨id, o, hfind, hat⟩
    · omega
  · rintro ⟨id, o, hfind, hat⟩
    have hle : shares S p o ≤ liveQty m S p := le_total hfind _
    have hq : 0 < o.qty.toNat := UInt32.lt_iff_toNat_lt.mp (hpos id o hfind)
    rw [shares, if_pos hat] at hle
    omega

section Moves
variable {m : Orders} {id : UInt64} {o : Order} (S : Side) (p : UInt32)

theorem liveQty_emplace (h : id ∉ m) :
    liveQty (m.emplace id o) S p = liveQty m S p + shares S p o := by
  rw [Orders.emplace, if_neg h, liveQty, total_insert h, liveQty, Nat.add_comm]

theorem liveQty_erase (h : m.lookup id = some o) :
    liveQty (m.erase id) S p + shares S p o = liveQty m S p := by
  rw [liveQty, liveQty, total_erase h, Nat.add_comm]

theorem liveQty_reduce (h : m.lookup id = some o) {qty : UInt32} (hq : qty ≤ o.qty) :
    liveQty (m.reduce id o qty) S p + shares S p ⟨qty, o.price, o.side⟩ = liveQty m S p := by
  have hsub : (o.qty - qty).toNat = o.qty.toNat - qty.toNat := UInt32.toNat_sub_of_le _ _ hq
  have hle : qty.toNat ≤ o.qty.toNat := UInt32.le_iff_toNat_le.mp hq
  have htotal := Orders.total_reduce h qty (shares S p)
  rw [← liveQty, ← liveQty] at htotal
  unfold shares at htotal ⊢
  dsimp only at htotal ⊢
  by_cases hat : o.side.book = S ∧ o.price = p
  · by_cases hz : o.qty - qty = 0
    · have hz' : o.qty.toNat - qty.toNat = 0 := by rw [← hsub, hz]; rfl
      simp only [if_pos hat, if_pos hz] at htotal ⊢
      omega
    · simp only [if_pos hat, if_neg hz] at htotal ⊢
      omega
  · simp only [if_neg hat] at htotal ⊢
    split at htotal <;> omega

theorem Positive.emplace (hpos : Positive m) (ho : 0 < o.qty) : Positive (m.emplace id o) := by
  intro id' o' h
  by_cases hid : id' = id
  · subst hid
    by_cases hmem : id' ∈ m
    · rw [Orders.emplace, if_pos hmem] at h
      exact hpos id' o' h
    · rw [Orders.lookup_emplace hmem] at h
      cases h
      exact ho
  · rw [Orders.lookup_emplace_ne hid] at h
    exact hpos id' o' h

theorem Positive.erase (hpos : Positive m) : Positive (m.erase id) := by
  intro id' o' h
  by_cases hid : id' = id
  · subst hid
    rw [Finmap.lookup_erase] at h
    cases h
  · rw [Finmap.lookup_erase_ne hid] at h
    exact hpos id' o' h

theorem Positive.reduce (hpos : Positive m) {qty : UInt32} : Positive (m.reduce id o qty) := by
  intro id' o' h
  by_cases hid : id' = id
  · subst hid
    rw [Orders.lookup_reduce] at h
    split at h
    · cases h
    · rename_i hz
      cases h
      exact UInt32.pos_iff_ne_zero.mpr hz
  · rw [Orders.lookup_reduce_ne hid] at h
    exact hpos id' o' h

end Moves

/-! ## Tables of sums -/

/-- The entry of a level map for a sum: no level where nothing rests. -/
def levelOf (n : ℕ) : Option UInt64 := if n = 0 then none else some (UInt64.ofNat n)

theorem levelOf_eq_some {n : ℕ} {q : UInt64} (hn : n < 2 ^ 64) (h : levelOf n = some q) :
    q.toNat = n := by
  unfold levelOf at h
  split at h
  · cases h
  · cases h
    exact UInt64.toNat_ofNat_of_lt' hn

theorem levelOf_isSome {n : ℕ} : (levelOf n).isSome ↔ 0 < n := by
  unfold levelOf
  split <;> simp <;> omega

theorem LevelMap.add_levelOf {t : UInt32 → ℕ} {q : UInt64} {p : UInt32} (hq : 0 < q.toNat) :
    LevelMap.add (fun x => levelOf (t x)) ⟨q, p⟩ =
      fun x => levelOf (t x + if p = x then q.toNat else 0) := by
  funext x
  by_cases hx : p = x
  · subst hx
    have hnz : t p + q.toNat ≠ 0 := by omega
    rw [LevelMap.add, Function.update_self, if_pos rfl, levelOf, levelOf, if_neg hnz]
    by_cases hz : t p = 0
    · rw [if_pos hz, hz]
      simp
    · rw [if_neg hz, UInt64.ofNat_add]
      simp
  · rw [LevelMap.add, Function.update_of_ne (Ne.symm hx), if_neg hx, Nat.add_zero]

theorem LevelMap.remove_levelOf {t : UInt32 → ℕ} {q : UInt64} {p : UInt32} (hp : 0 < t p)
    (hq : q.toNat ≤ t p) (hb : t p < 2 ^ 64) :
    LevelMap.remove (fun x => levelOf (t x)) ⟨q, p⟩ =
      .ok fun x => levelOf (t x - if p = x then q.toNat else 0) := by
  have hlevel : levelOf (t p) = some (UInt64.ofNat (t p)) := if_neg (by omega)
  have hnat : (UInt64.ofNat (t p)).toNat = t p := UInt64.toNat_ofNat_of_lt' hb
  have hdiff : (UInt64.ofNat (t p - q.toNat)).toNat = t p - q.toNat :=
    UInt64.toNat_ofNat_of_lt' (lt_of_le_of_lt (Nat.sub_le _ _) hb)
  have hle : ¬ UInt64.ofNat (t p) < q := by
    rw [UInt64.lt_iff_toNat_lt, hnat]
    omega
  have hsub : UInt64.ofNat (t p) - q = UInt64.ofNat (t p - q.toNat) := by
    rw [← UInt64.toNat_inj, UInt64.toNat_sub_of_le _ _ (UInt64.not_lt.mp hle), hnat, hdiff]
  simp only [LevelMap.remove, hlevel, hle, if_false, Except.ok.injEq, hsub]
  funext x
  by_cases hx : p = x
  · subst hx
    have hz : UInt64.ofNat (t p - q.toNat) = 0 ↔ t p - q.toNat = 0 := by
      rw [← UInt64.toNat_inj, hdiff]
      rfl
    rw [Function.update_self, if_pos rfl, levelOf]
    simp only [hz]
  · rw [Function.update_of_ne (Ne.symm hx), if_neg hx, Nat.sub_zero]

namespace OrderBook

/-- Both sides of the book are the table of sums `t`. -/
def Shows (b : Book) (t : Side → UInt32 → ℕ) : Prop := ∀ S p, b.view S p = levelOf (t S.book p)

theorem Shows.view_eq {b : Book} {t : Side → UInt32 → ℕ} (h : Shows b t) (S : Side) :
    b.view S = fun p => levelOf (t S.book p) := funext (h S)

section Stores
variable {b : Book} {t : Side → UInt32 → ℕ} (h : b.WellFormed) (ht : Shows b t) (side : Side)
  {qty price : UInt32}
include h ht

variable (price) in
theorem addLevel_shows (hq : 0 < qty) :
    ∃ change b', b.addLevel side ⟨qty.toUInt64, price⟩ = .ok (change, b') ∧ b'.WellFormed ∧
      Shows b' fun S p => t S p + shares S p ⟨qty, price, side⟩ := by
  obtain ⟨change, b', hadd, hwf, hview, -⟩ := addLevel_spec h side ⟨qty.toUInt64, price⟩
  refine ⟨change, b', hadd, hwf, fun S p => ?_⟩
  have hnat : 0 < qty.toUInt64.toNat := by simpa using UInt32.lt_iff_toNat_lt.mp hq
  rw [hview, ht.view_eq S]
  by_cases hS : S.book = side.book
  · rw [if_pos hS, LevelMap.add_levelOf hnat]
    simp [shares, hS]
  · rw [if_neg hS]
    simp [shares, Ne.symm hS]

theorem removeLevel_shows (hlive : 0 < t side.book price) (hq : qty.toNat ≤ t side.book price)
    (hb : t side.book price < 2 ^ 64) :
    ∃ change b', b.removeLevel side ⟨qty.toUInt64, price⟩ = .ok (change, b') ∧ b'.WellFormed ∧
      Shows b' fun S p => t S p - shares S p ⟨qty, price, side⟩ := by
  have hrem : LevelMap.remove (b.view side) ⟨qty.toUInt64, price⟩ = .ok fun p =>
      levelOf (t side.book p - if price = p then qty.toUInt64.toNat else 0) := by
    rw [ht.view_eq side]
    exact LevelMap.remove_levelOf hlive (by simpa using hq) hb
  cases removeLevel_spec h side ⟨qty.toUInt64, price⟩ with
  | inl hfault =>
    obtain ⟨fault, hm, -⟩ := hfault
    rw [hrem] at hm
    cases hm
  | inr hok =>
    obtain ⟨change, b', m, hrun, hwf, hm, hview, -⟩ := hok
    rw [hrem] at hm
    cases hm
    refine ⟨change, b', hrun, hwf, fun S p => ?_⟩
    rw [hview]
    by_cases hS : S.book = side.book
    · rw [if_pos hS]
      simp [shares, hS]
    · rw [if_neg hS, ht]
      simp [shares, Ne.symm hS]

end Stores

/-! ## Operations of a well-behaved feed -/

end OrderBook

/-- What the ITCH feed guarantees of the ids and shares it introduces. -/
def Op.Feed (m : Orders) : Op → Prop
  | .addOrder orderId _ qty _ => 0 < qty ∧ orderId ∉ m
  | .replaceOrder orderId newOrderId qty _ => 0 < qty ∧ (newOrderId ∉ m ∨ newOrderId = orderId)
  | _ => True

/-- Moreover every reference is to a live order with enough shares left. -/
def Op.Valid (m : Orders) (op : Op) : Prop :=
  op.Feed m ∧
    match op with
    | .addOrder .. => True
    | .cancelOrder orderId qty | .executeOrder orderId qty =>
      ∃ order, m.lookup orderId = some order ∧ qty ≤ order.qty
    | .replaceOrder orderId .. | .deleteOrder orderId => orderId ∈ m

/-- An operation that returned was valid, if the feed kept its promises. -/
theorem OrderBook.OrdersStep.valid {m m' : Orders} {op : Op} (h : OrdersStep m op m')
    (hfeed : op.Feed m) : op.Valid m := by
  refine ⟨hfeed, ?_⟩
  cases h with
  | addOrder => trivial
  | cancelOrder hfind hqty => exact ⟨_, hfind, hqty⟩
  | executeOrder hfind hqty => exact ⟨_, hfind, hqty⟩
  | replaceOrder newOrderId qty price hfind => exact Finmap.mem_of_lookup_eq_some hfind
  | deleteOrder hfind => exact Finmap.mem_of_lookup_eq_some hfind

namespace OrderBook

/-- The levels are the sums of the live orders, of which there are fewer than `2 ^ 32`. -/
structure Aggregates (b : Book) : Prop where
  wf : b.WellFormed
  positive : Positive b.ordersMap
  few : size b.ordersMap < 2 ^ 32
  shows : Shows b (liveQty b.ordersMap)

/-- The same without a bound on the number of orders. -/
structure Tallies (b : Book) : Prop where
  wf : b.WellFormed
  positive : Positive b.ordersMap
  shows : Shows b (liveQty b.ordersMap)

theorem Aggregates.tallies {b : Book} (h : Aggregates b) : Tallies b := ⟨h.wf, h.positive, h.shows⟩

theorem Tallies.aggregates {b : Book} (h : Tallies b) (hfew : size b.ordersMap < 2 ^ 32) :
    Aggregates b := ⟨h.wf, h.positive, hfew, h.shows⟩

theorem empty_tallies : Tallies empty where
  wf := empty_wellFormed
  positive id o h := by
    have hnone : (empty : Book).ordersMap.lookup id = none := Finmap.lookup_empty id
    rw [hnone] at h
    cases h
  shows S p := by
    have hview : (empty : Book).view S = LevelMap.empty := by
      unfold view
      split <;> rfl
    rw [hview]
    rfl

theorem empty_aggregates : Aggregates empty := empty_tallies.aggregates (by decide)

theorem Tallies.le_liveQty {b : Book} (h : Tallies b) {id : UInt64} {o : Order}
    (hfind : b.ordersMap.lookup id = some o) :
    0 < o.qty.toNat ∧ o.qty.toNat ≤ liveQty b.ordersMap o.side.book o.price := by
  have hle : shares o.side.book o.price o ≤ liveQty b.ordersMap o.side.book o.price :=
    le_total hfind _
  rw [shares, if_pos ⟨rfl, rfl⟩] at hle
  exact ⟨UInt32.lt_iff_toNat_lt.mp (h.positive id o hfind), hle⟩

theorem Tallies.removeLevel {b : Book} (h : Tallies b) {id : UInt64} {o : Order}
    (hfind : b.ordersMap.lookup id = some o)
    (hb : liveQty b.ordersMap o.side.book o.price < 2 ^ 64) {qty : UInt32} (hq : qty ≤ o.qty) :
    ∃ change b', b.removeLevel o.side ⟨qty.toUInt64, o.price⟩ = .ok (change, b') ∧
      b'.WellFormed ∧ Shows b' fun S p =>
        liveQty b.ordersMap S p - shares S p ⟨qty, o.price, o.side⟩ := by
  obtain ⟨hpos, hle⟩ := h.le_liveQty hfind
  have hqn : qty.toNat ≤ o.qty.toNat := UInt32.le_iff_toNat_le.mp hq
  exact removeLevel_shows h.wf h.shows o.side (by omega) (by omega) hb

/-- The invariant of a book whose map of orders was just replaced. -/
theorem tallies_of {b : Book} {m : Orders} {t : Side → UInt32 → ℕ} (hwf : b.WellFormed)
    (hpos : Positive m) (ht : Shows b t) (heq : ∀ S p, t S p = liveQty m S p) :
    Tallies { b with ordersMap := m } where
  wf := ⟨hwf.bid, hwf.ask⟩
  positive := hpos
  shows S p := by
    show b.view S p = _
    rw [ht, heq]

section Valid
variable {b : Book} (h : b.Tallies)
include h

theorem addOrder_valid {orderId : UInt64} (side : Side) {qty : UInt32} (price : UInt32)
    (hq : 0 < qty) (hnew : orderId ∉ b.ordersMap) :
    ∃ change b', b.addOrder orderId side qty price = .ok (change, b') ∧ b'.Tallies := by
  have hwf : WellFormed { b with ordersMap := b.ordersMap.emplace orderId ⟨qty, price, side⟩ } :=
    ⟨h.wf.bid, h.wf.ask⟩
  obtain ⟨change, b', hadd, hwf', hshows⟩ := addLevel_shows hwf h.shows side price hq
  refine ⟨change, b', hadd, ?_⟩
  have horders : b'.ordersMap = b.ordersMap.emplace orderId ⟨qty, price, side⟩ := addLevel_orders hadd
  refine tallies_of hwf' ?_ hshows fun S p => ?_
  · rw [horders]
    exact h.positive.emplace hq
  · rw [horders, liveQty_emplace S p hnew]

variable (hb : ∀ S p, liveQty b.ordersMap S p < 2 ^ 64)
include hb

theorem reduceOrder_valid (notFound tooMuch : String) {orderId : UInt64} {order : Order}
    {qty : UInt32} (hfind : b.ordersMap.lookup orderId = some order) (hq : qty ≤ order.qty) :
    ∃ change b', reduceOrder notFound tooMuch b orderId qty = .ok (change, b') ∧ b'.Tallies := by
  obtain ⟨change, b₁, hrem, hwf, hshows⟩ := h.removeLevel hfind (hb _ _) hq
  refine ⟨change, { b₁ with ordersMap := b.ordersMap.reduce orderId order qty }, ?_, ?_⟩
  · rw [reduceOrder_eq _ _ hfind hq, hrem, ok_bind]
  · refine tallies_of hwf h.positive.reduce hshows fun S p => ?_
    have := liveQty_reduce S p hfind hq
    omega

theorem deleteOrder_valid {orderId : UInt64} (hlive : orderId ∈ b.ordersMap) :
    ∃ change b', b.deleteOrder orderId = .ok (change, b') ∧ b'.Tallies := by
  obtain ⟨order, hfind⟩ := Finmap.mem_iff.mp hlive
  obtain ⟨change, b₁, hrem, hwf, hshows⟩ := h.removeLevel hfind (hb _ _) (UInt32.le_refl _)
  refine ⟨change, { b₁ with ordersMap := b.ordersMap.erase orderId }, ?_, ?_⟩
  · rw [deleteOrder_eq hfind, hrem, ok_bind]
  · refine tallies_of hwf h.positive.erase hshows fun S p => ?_
    have herase : liveQty (b.ordersMap.erase orderId) S p +
        shares S p ⟨order.qty, order.price, order.side⟩ = liveQty b.ordersMap S p :=
      liveQty_erase S p hfind
    omega

theorem replaceOrder_valid {orderId newOrderId : UInt64} {qty : UInt32} (price : UInt32)
    (hq : 0 < qty) (hnew : newOrderId ∉ b.ordersMap ∨ newOrderId = orderId)
    (hlive : orderId ∈ b.ordersMap) :
    ∃ change b', b.replaceOrder orderId newOrderId qty price = .ok (change, b') ∧ b'.Tallies := by
  obtain ⟨order, hfind⟩ := Finmap.mem_iff.mp hlive
  obtain ⟨rem, b₁, hrem, hwf₁, hshows₁⟩ := h.removeLevel hfind (hb _ _) (UInt32.le_refl _)
  obtain ⟨add, b₂, hadd, hwf₂, hshows₂⟩ :=
    addLevel_shows hwf₁ hshows₁ order.side price hq
  have hfresh : newOrderId ∉ b.ordersMap.erase orderId := by
    rw [Finmap.mem_erase, not_and]
    intro hne
    exact hnew.resolve_right hne
  rw [replaceOrder_eq hfind, hrem, ok_bind, hadd, ok_bind]
  refine ⟨_, _, rfl, ?_⟩
  refine tallies_of hwf₂ (h.positive.erase.emplace hq) hshows₂ fun S p => ?_
  have herase : liveQty (b.ordersMap.erase orderId) S p +
      shares S p ⟨order.qty, order.price, order.side⟩ = liveQty b.ordersMap S p :=
    liveQty_erase S p hfind
  rw [liveQty_emplace S p hfresh]
  omega

/-- **A valid operation returns and keeps the sums**, as long as they fit. -/
theorem apply_tallies {op : Op} (hvalid : op.Valid b.ordersMap) :
    ∃ change b', b.apply op = .ok (change, b') ∧ b'.Tallies := by
  obtain ⟨hfeed, href⟩ := hvalid
  cases op with
  | addOrder orderId side qty price => exact addOrder_valid h side price hfeed.1 hfeed.2
  | cancelOrder orderId qty =>
    obtain ⟨order, hfind, hq⟩ := href
    exact reduceOrder_valid h hb _ _ hfind hq
  | executeOrder orderId qty =>
    obtain ⟨order, hfind, hq⟩ := href
    exact reduceOrder_valid h hb _ _ hfind hq
  | replaceOrder orderId newOrderId qty price =>
    exact replaceOrder_valid h hb price hfeed.1 hfeed.2 href
  | deleteOrder orderId => exact deleteOrder_valid h hb href

end Valid

section Feed
variable {b : Book} (h : b.Aggregates)
include h

/-- **A valid operation returns and keeps the aggregation.** -/
theorem apply_valid {op : Op} (hvalid : op.Valid b.ordersMap) :
    ∃ change b', b.apply op = .ok (change, b') ∧ (size b'.ordersMap < 2 ^ 32 → b'.Aggregates) := by
  obtain ⟨change, b', happly, htallies⟩ :=
    apply_tallies h.tallies (liveQty_lt h.few.le) hvalid
  exact ⟨change, b', happly, htallies.aggregates⟩

theorem apply_feed {b' : Book} {op : Op} {change : BestLvlChange} (hfeed : op.Feed b.ordersMap)
    (happly : b.apply op = .ok (change, b')) (hfew : size b'.ordersMap < 2 ^ 32) :
    b'.Aggregates := by
  obtain ⟨c, b₁, hrun, hinv⟩ := apply_valid h ((apply_orders happly).valid hfeed)
  rw [happly] at hrun
  cases hrun
  exact hinv hfew

end Feed

/-! ## Runs -/

/-- Every operation of the run keeps the promises of the feed, and there are never `2 ^ 32` orders. -/
structure FeedRun (ops : List Op) (b : Book) : Prop where
  run : run step empty ops = .ok b
  feed : Along step (fun b op => op.Feed b.ordersMap) (empty : Book) ops
  few : Throughout step (fun b => size b.ordersMap < 2 ^ 32) (empty : Book) ops

theorem FeedRun.aggregates {ops : List Op} {b : Book} (h : FeedRun ops b) : b.Aggregates := by
  refine run_induction (fun _ b => b.Aggregates) empty_aggregates ?_ h.feed h.few h.run
  intro _ b op b' hinv hfeed hfew hstep
  obtain ⟨change, happly⟩ := step_ok hstep
  exact apply_feed hinv hfeed happly hfew

/-! ## The vectors of a run -/

/-- One store against the live orders of its side. -/
structure Aggregated {S : Side} (l : VectorLevelBSearchSplit S) (m : Orders) : Prop where
  sorted : l.prices.Pairwise S.Worse
  length : l.qtys.length = l.prices.length
  mem_iff : ∀ p, p ∈ l.prices ↔ LiveAt m S p
  qty_eq : ∀ (i : ℕ) (p : UInt32) (q : UInt64),
    l.prices[i]? = some p → l.qtys[i]? = some q → q.toNat = liveQty m S p

/-- The best live price of a side with everything that rests there. -/
def BestOf (m : Orders) (S : Side) (level : Level) : Prop :=
  ((∀ p, ¬ LiveAt m S p) ∧ level = ⟨0, 0⟩) ∨
    (LiveAt m S level.price ∧ level.qty.toNat = liveQty m S level.price ∧
      ∀ p, LiveAt m S p → p = level.price ∨ S.Worse p level.price)

section Vectors
variable {S : Side} {l : VectorLevelBSearchSplit S} {m : Orders} (hwf : l.WellFormed)
  (hpos : Positive m) (hfew : size m < 2 ^ 32) (hview : ∀ p, l.view p = levelOf (liveQty m S p))
include hpos hview

theorem view_isSome (p : UInt32) : (l.view p).isSome ↔ LiveAt m S p := by
  rw [hview, levelOf_isSome, liveQty_pos_iff hpos]

include hwf hfew

theorem aggregated : Aggregated l m where
  sorted := hwf.sorted
  length := hwf.length.symm
  mem_iff p := (find_isSome hwf.length).symm.trans (view_isSome hpos hview p)
  qty_eq i p q hp hq := by
    have hfind : l.view p = some q := find_getElem hwf.sorted.nodup hp hq
    rw [hview] at hfind
    exact levelOf_eq_some (liveQty_lt hfew.le S p) hfind

theorem bestOf_top : BestOf m S l.top := by
  cases VectorLevelBSearchSplit.best_spec hwf with
  | inl h =>
    obtain ⟨hempty, htop⟩ := h
    refine Or.inl ⟨fun p hp => ?_, htop⟩
    have hsome := (view_isSome hpos hview p).mpr hp
    rw [hempty] at hsome
    cases hsome
  | inr h =>
    obtain ⟨htop, hbest⟩ := h
    refine Or.inr ⟨(view_isSome hpos hview _).mp (by rw [htop]; rfl), ?_, ?_⟩
    · rw [hview] at htop
      exact levelOf_eq_some (liveQty_lt hfew.le S _) htop
    · exact fun p hp => hbest p ((view_isSome hpos hview p).mpr hp)

end Vectors

/-- **The price levels are exactly the aggregation of the live orders.** -/
theorem levels_aggregate_live_orders {ops : List Op} {b : Book} (h : FeedRun ops b) :
    (Aggregated b.bidLevels b.ordersMap ∧ Aggregated b.askLevels b.ordersMap) ∧
      (∃ bid, b.bestBid = .ok (bid, b) ∧ BestOf b.ordersMap Side.Bid bid) ∧
      ∃ ask, b.bestAsk = .ok (ask, b) ∧ BestOf b.ordersMap Side.Ask ask := by
  obtain ⟨hwf, hpos, hfew, hshows⟩ := h.aggregates
  obtain ⟨hbid, hask⟩ := best_eq_top hwf
  exact ⟨⟨aggregated hwf.bid hpos hfew (hshows Side.Bid),
      aggregated hwf.ask hpos hfew (hshows Side.Ask)⟩,
    ⟨_, hbid, bestOf_top hwf.bid hpos hfew (hshows Side.Bid)⟩,
    ⟨_, hask, bestOf_top hwf.ask hpos hfew (hshows Side.Ask)⟩⟩

/-- Two bids on one price, a partial fill and a replacement to another price. -/
theorem levels_aggregate_sample :
    ∃ b : Book, Aggregated b.bidLevels b.ordersMap ∧ b.bidLevels = ⟨[10, 11], [50, 60]⟩ := by
  have hrun : FeedRun [.addOrder 1 Side.Bid 100 10, .addOrder 2 Side.Bid 50 10,
      .executeOrder 1 30, .replaceOrder 1 3 60 11] _ :=
    ⟨rfl,
      .cons rfl ⟨by decide, by decide⟩ <| .cons rfl ⟨by decide, by decide⟩ <| .cons rfl trivial <|
        .cons rfl ⟨by decide, Or.inl (by decide)⟩ .nil,
      .cons rfl (by decide) <| .cons rfl (by decide) <| .cons rfl (by decide) <|
        .cons rfl (by decide) <| .nil (by decide)⟩
  exact ⟨_, (levels_aggregate_live_orders hrun).1.1, by decide⟩

end OrderBook

end ItchIngestion.OB
