import ItchIngestion.Book.Residues
import ItchIngestion.Book.Commutation
import ItchIngestion.Levels.Inverse

/-! # What a deletion takes back

An order reduced to nothing in any number of portions leaves the book as its deletion does
(`piecewise_reduction`), and a deletion takes back the addition before it (`delete_undoes_add`).
Neither needs a bound on the number of live orders. A level that has wrapped past `2 ^ 64` can be
too small for the order, then the portions abort as the deletion does (`piecewise_aborts`).
-/
namespace ItchIngestion.OB
open Library
set_option autoImplicit false

/-- A cancellation or an execution of `qty` shares of the order. -/
def Op.Reduces (id : UInt64) (op : Op) (qty : UInt32) : Prop :=
  op = .cancelOrder id qty ∨ op = .executeOrder id qty

namespace OrderBook

/-- `apply` in sequence; the last returned change stays. -/
def replay (s : BestLvlChange × Book) (op : Op) : Except Fault (BestLvlChange × Book) :=
  s.2.apply op

/-! ## Portions of an order -/

section Portions
variable {b b₁ : Book} {side : Side} {price : UInt32} {change : BestLvlChange}

theorem removeLevel_removeLevel (h : b.WellFormed) {x y : UInt64} (hy : 0 < y)
    (hxy : x.toNat + y.toNat < 2 ^ 64) (hrem : b.removeLevel side ⟨x, price⟩ = .ok (change, b₁))
    (r : BestLvlChange × Book) :
    b₁.removeLevel side ⟨y, price⟩ = .ok r ↔ b.removeLevel side ⟨x + y, price⟩ = .ok r := by
  by_cases hside : side = Side.Bid
  · rw [removeLevel_bid _ _ hside] at hrem
    obtain ⟨⟨c, l⟩, hl, he⟩ := bind_eq_ok.mp hrem
    cases he
    rw [removeLevel_bid _ _ hside, removeLevel_bid _ _ hside, bind_eq_ok, bind_eq_ok]
    exact exists_congr fun r' => and_congr_left fun _ =>
      VectorLevelBSearchSplit.remove_remove h.bid hy hxy hl r'
  · rw [removeLevel_ask _ _ hside] at hrem
    obtain ⟨⟨c, l⟩, hl, he⟩ := bind_eq_ok.mp hrem
    cases he
    rw [removeLevel_ask _ _ hside, removeLevel_ask _ _ hside, bind_eq_ok, bind_eq_ok]
    exact exists_congr fun r' => and_congr_left fun _ =>
      VectorLevelBSearchSplit.remove_remove h.ask hy hxy hl r'

variable {id : UInt64} {o : Order} {qty : UInt32}

theorem apply_reduces {op : Op} (hop : op.Reduces id qty) (hfind : b.ordersMap.lookup id = some o)
    (hq : qty ≤ o.qty) : b.apply op = b.removeLevel o.side ⟨qty.toUInt64, o.price⟩ >>= fun r =>
      .ok (r.1, { r.2 with ordersMap := b.ordersMap.reduce id o qty }) := by
  cases hop with
  | inl h => exact h ▸ reduceOrder_eq _ _ hfind hq
  | inr h => exact h ▸ reduceOrder_eq _ _ hfind hq

theorem lookup_portion {m : Orders} (hq : qty < o.qty) :
    (m.reduce id o qty).lookup id = some { o with qty := o.qty - qty } := by
  have hsub : (o.qty - qty).toNat = o.qty.toNat - qty.toNat :=
    UInt32.toNat_sub_of_le _ _ (UInt32.le_of_lt hq)
  have hqn : qty.toNat < o.qty.toNat := UInt32.lt_iff_toNat_lt.mp hq
  have hnz : o.qty - qty ≠ 0 := by
    intro hz
    have hzero : (o.qty - qty).toNat = 0 := by rw [hz]; rfl
    omega
  rw [Orders.lookup_reduce, if_neg hnz]

/-- What is left of an order after a portion is deleted as the whole order is. -/
theorem deleteOrder_reduced (h : b.WellFormed) (hfind : b.ordersMap.lookup id = some o)
    (hq : qty < o.qty)
    (hrem : b.removeLevel o.side ⟨qty.toUInt64, o.price⟩ = .ok (change, b₁))
    (r : BestLvlChange × Book) :
    deleteOrder { b₁ with ordersMap := b.ordersMap.reduce id o qty } id = .ok r ↔
      b.deleteOrder id = .ok r := by
  have hqn : qty.toNat < o.qty.toNat := UInt32.lt_iff_toNat_lt.mp hq
  have hsub : (o.qty - qty).toNat = o.qty.toNat - qty.toNat :=
    UInt32.toNat_sub_of_le _ _ (UInt32.le_of_lt hq)
  have hrest : 0 < (o.qty - qty).toUInt64 := by
    rw [UInt64.lt_iff_toNat_lt, UInt32.toNat_toUInt64, hsub]
    exact Nat.sub_pos_of_lt hqn
  have hlt := o.qty.toNat_lt
  have hwhole : qty.toUInt64 + (o.qty - qty).toUInt64 = o.qty.toUInt64 := by
    rw [← UInt64.toNat_inj, UInt64.toNat_add, UInt32.toNat_toUInt64, UInt32.toNat_toUInt64,
      UInt32.toNat_toUInt64, hsub]
    omega
  have hgone : (b.ordersMap.reduce id o qty).erase id = b.ordersMap.erase id := by
    apply Finmap.ext_lookup
    intro x
    by_cases hx : x = id
    · rw [hx, Finmap.lookup_erase, Finmap.lookup_erase]
    · rw [Finmap.lookup_erase_ne hx, Finmap.lookup_erase_ne hx, Orders.lookup_reduce_ne hx]
  have hportions := removeLevel_removeLevel h hrest
    (by rw [UInt32.toNat_toUInt64, UInt32.toNat_toUInt64, hsub]; omega) hrem
  rw [hwhole] at hportions
  rw [deleteOrder_eq (lookup_portion hq), deleteOrder_eq hfind, removeLevel_setOrders, bind_eq_ok, bind_eq_ok]
  dsimp only
  rw [hgone]
  constructor
  · rintro ⟨r', hr', hr⟩
    obtain ⟨r'', hr'', he⟩ := bind_eq_ok.mp hr'
    cases he
    exact ⟨r'', (hportions r'').mp hr'', hr⟩
  · rintro ⟨r', hr', hr⟩
    exact ⟨_, bind_eq_ok.mpr ⟨r', (hportions r').mpr hr', rfl⟩, hr⟩

end Portions

/-- The portions and the deletion return the same, if they return. -/
theorem replay_portions {id : UInt64} {pieces : List Op} {qtys : List UInt32}
    (hpieces : List.Forall₂ (Op.Reduces id) pieces qtys) (hne : qtys ≠ [])
    (hpos : ∀ q ∈ qtys, 0 < q) {b : Book} (h : b.WellFormed) {o : Order}
    (hfind : b.ordersMap.lookup id = some o) (hsum : (qtys.map UInt32.toNat).sum = o.qty.toNat)
    (last : BestLvlChange) (r : BestLvlChange × Book) :
    run replay (last, b) pieces = .ok r ↔ b.deleteOrder id = .ok r := by
  induction hpieces generalizing b o last with
  | nil => exact absurd rfl hne
  | @cons op qty pieces qtys hop hpieces ih =>
    rw [List.map_cons, List.sum_cons] at hsum
    have hle : qty ≤ o.qty := UInt32.le_iff_toNat_le.mpr (by omega)
    have hop := apply_reduces hop hfind hle
    cases hpieces with
    | nil =>
      have hall : qty = o.qty := UInt32.toNat_inj.mp hsum
      have hgone : b.ordersMap.reduce id o qty = b.ordersMap.erase id := by
        rw [Orders.reduce, hall, UInt32.sub_self, if_pos rfl]
      rw [hgone, hall, ← deleteOrder_eq hfind] at hop
      rw [run_singleton, replay, hop]
    | @cons op' qty' pieces qtys hop' hpieces =>
      have hpos' : 0 < qty' := hpos qty' (List.mem_cons_of_mem _ List.mem_cons_self)
      have hposn : 0 < qty'.toNat := UInt32.lt_iff_toNat_lt.mp hpos'
      have hrest := hsum
      rw [List.map_cons, List.sum_cons] at hrest
      have hlt : qty < o.qty := UInt32.lt_iff_toNat_lt.mpr (by omega)
      have hsub : (o.qty - qty).toNat = o.qty.toNat - qty.toNat := UInt32.toNat_sub_of_le _ _ hle
      have hnext : ∀ change b₁,
          b.removeLevel o.side ⟨qty.toUInt64, o.price⟩ = .ok (change, b₁) →
          (run replay (change, { b₁ with ordersMap := b.ordersMap.reduce id o qty })
            (op' :: pieces) = .ok r ↔ b.deleteOrder id = .ok r) := by
        intro change b₁ hrem
        have hwf := (removeLevel_ok h hrem).1
        have hwf' : WellFormed { b₁ with ordersMap := b.ordersMap.reduce id o qty } :=
          ⟨hwf.bid, hwf.ask⟩
        have hsum' : ((qty' :: qtys).map UInt32.toNat).sum = (o.qty - qty).toNat := by omega
        rw [ih (List.cons_ne_nil _ _) (fun q hq => hpos q (List.mem_cons_of_mem _ hq)) hwf'
          (lookup_portion hlt) hsum' change]
        exact deleteOrder_reduced h hfind hlt hrem r
      rw [run_cons_ok]
      constructor
      · rintro ⟨s, hs, hrun⟩
        obtain ⟨⟨change, b₁⟩, hrem, he⟩ := bind_eq_ok.mp (hop.symm.trans hs)
        cases he
        exact (hnext change b₁ hrem).mp hrun
      · intro hdel
        obtain ⟨order, b₂, hfind', hrem, -⟩ := deleteOrder_ok hdel
        cases hfind.symm.trans hfind'
        obtain ⟨q, hq, hfits⟩ := (removeLevel_returns_iff h).mp ⟨_, hrem⟩
        have hqty : qty.toUInt64 ≤ q := by
          rw [UInt64.le_iff_toNat_le, UInt32.toNat_toUInt64] at hfits ⊢
          omega
        obtain ⟨⟨change, b₁⟩, hrem₁⟩ :=
          (@removeLevel_returns_iff b o.side ⟨qty.toUInt64, o.price⟩ h).mpr ⟨q, hq, hqty⟩
        refine ⟨_, hop.trans ?_, (hnext change b₁ hrem₁).mpr hdel⟩
        rw [hrem₁, ok_bind]

theorem Congruent.deleteOrder_ok {b : Book} (h : b.Congruent) {id : UInt64} {o : Order}
    (hfind : b.ordersMap.lookup id = some o)
    (hlt : liveQty b.ordersMap o.side.book o.price < 2 ^ 64) : ∃ r, b.deleteOrder id = .ok r := by
  have hle : shares o.side.book o.price o ≤ liveQty b.ordersMap o.side.book o.price :=
    le_total hfind _
  rw [shares, if_pos ⟨rfl, rfl⟩] at hle
  have hpos : 0 < o.qty.toNat := UInt32.lt_iff_toNat_lt.mp (h.positive id o hfind)
  obtain ⟨q, hq⟩ := Option.isSome_iff_exists.mp
    (levelOf_isSome (n := liveQty b.ordersMap o.side.book o.price).mpr (by omega))
  have hqn := levelOf_eq_some hlt hq
  rw [← h.view_eq hlt] at hq
  have hfits : o.qty.toUInt64 ≤ q := by
    rw [UInt64.le_iff_toNat_le, UInt32.toNat_toUInt64]
    omega
  obtain ⟨r, hrem⟩ :=
    (@removeLevel_returns_iff b o.side ⟨o.qty.toUInt64, o.price⟩ h.wf).mpr ⟨q, hq, hfits⟩
  exact ⟨_, by rw [deleteOrder_eq hfind, hrem, ok_bind]⟩

/-- **Piecewise reduction equals deletion.** -/
theorem piecewise_reduction {ops : List Op} {b : Book} (h : UnboundedRun ops b) {id : UInt64}
    {o : Order} (hfind : b.ordersMap.lookup id = some o) {pieces : List Op} {qtys : List UInt32}
    (hpieces : List.Forall₂ (Op.Reduces id) pieces qtys) (hne : qtys ≠ [])
    (hpos : ∀ q ∈ qtys, 0 < q) (hsum : (qtys.map UInt32.toNat).sum = o.qty.toNat)
    (last : BestLvlChange) :
    (∀ r, run replay (last, b) pieces = .ok r ↔ b.deleteOrder id = .ok r) ∧
      (liveQty b.ordersMap o.side.book o.price < 2 ^ 64 →
        ∃ r, run replay (last, b) pieces = .ok r) := by
  have hiff := replay_portions hpieces hne hpos h.congruent.wf hfind hsum last
  refine ⟨hiff, fun hlt => ?_⟩
  obtain ⟨r, hdel⟩ := h.congruent.deleteOrder_ok hfind hlt
  exact ⟨r, (hiff r).mpr hdel⟩

theorem piecewise_reduction_sample :
    ∃ (b : Book) (r : BestLvlChange × Book),
      UnboundedRun [.addOrder 1 Side.Ask 5 10, .addOrder 2 Side.Ask 4 10] b ∧
      run replay (BestLvlChange.none, b) [.cancelOrder 1 2, .executeOrder 1 3] = .ok r ∧
      b.deleteOrder 1 = .ok r := by
  obtain ⟨b, hrun, hfind, hlt⟩ :
      ∃ b : Book, UnboundedRun [.addOrder 1 Side.Ask 5 10, .addOrder 2 Side.Ask 4 10] b ∧
        b.ordersMap.lookup 1 = some ⟨5, 10, Side.Ask⟩ ∧ liveQty b.ordersMap Side.Ask 10 < 2 ^ 64 :=
    ⟨_, ⟨rfl, .cons rfl ⟨⟨by decide, by decide⟩, trivial⟩ <|
      .cons rfl ⟨⟨by decide, by decide⟩, trivial⟩ .nil⟩, by decide, liveQty_lt (by decide) _ _⟩
  have hpieces : List.Forall₂ (Op.Reduces 1) [.cancelOrder 1 2, .executeOrder 1 3] [2, 3] :=
    .cons (Or.inl rfl) (.cons (Or.inr rfl) .nil)
  have hmain := piecewise_reduction hrun hfind hpieces (by decide) (by simp) rfl
    BestLvlChange.none
  obtain ⟨r, hr⟩ := hmain.2 hlt
  exact ⟨b, r, hrun, hr, (hmain.1 r).mp hr⟩

theorem whales_unbounded {ids : List UInt64} (hn : ids.Nodup) {b : Book}
    (hrun : run step empty (ids.map whale) = .ok b) : UnboundedRun (ids.map whale) b := by
  refine ⟨hrun, fun pre op post t he ht => ?_⟩
  obtain ⟨xs, ys, rfl, rfl, hys⟩ := List.map_eq_append_iff.mp he
  obtain ⟨x, ys, rfl, rfl, rfl⟩ := List.map_eq_cons_iff.mp hys
  obtain ⟨b', hrun', -, -, hlive⟩ := addsFirst_level xs
  rw [ht] at hrun'
  cases hrun'
  have hx : x ∉ xs := fun hx =>
    (List.nodup_append.mp hn).2.2 x hx x List.mem_cons_self rfl
  have hfresh := hlive x
  rw [if_neg hx] at hfresh
  exact ⟨⟨by decide, Finmap.lookup_eq_none.mp hfresh⟩, trivial⟩

/-- With `2 ^ 32 + 2` orders of the largest size on one level, none of them can be taken off. -/
theorem piecewise_aborts :
    ¬ ∀ (ops : List Op) (b : Book), UnboundedRun ops b → ∀ (id : UInt64) (o : Order),
      b.ordersMap.lookup id = some o → ∀ (pieces : List Op) (qtys : List UInt32),
      List.Forall₂ (Op.Reduces id) pieces qtys → qtys ≠ [] → (∀ q ∈ qtys, 0 < q) →
      (qtys.map UInt32.toNat).sum = o.qty.toNat →
      ∃ r, run replay (BestLvlChange.none, b) pieces = .ok r := by
  intro hall
  obtain ⟨ids, hn, hlen⟩ := exists_many_ids
  obtain ⟨b, hrun, hlive, hrem⟩ := addsFirst_wraps hlen
  cases ids with
  | nil => simp at hlen
  | cons id ids =>
    have hfind := hlive id List.mem_cons_self
    obtain ⟨r, hr⟩ := hall _ b (whales_unbounded hn hrun) id _ hfind [.cancelOrder id 4294967295]
      [4294967295] (.cons (Or.inl rfl) .nil) (by decide) (by simp) (Nat.add_zero _)
    have happly := apply_reduces (Or.inl rfl : Op.Reduces id (.cancelOrder id 4294967295) _) hfind
      (UInt32.le_refl _)
    have hfail : b.apply (.cancelOrder id 4294967295) = .error (.unexpected "Remove underflow") := by
      rw [happly]
      exact congrArg (fun r => r >>= _) hrem
    rw [run_singleton, replay, hfail] at hr
    cases hr

/-! ## An addition and its deletion -/

/-- What `best_bid` or `best_ask` returns, by side. -/
def bestOf (b : Book) (S : Side) : Except Fault (Level × Book) :=
  if S = Side.Bid then b.bestBid else b.bestAsk

/-- A new level at the price would come directly behind the best one. -/
def BehindBest (b : Book) (side : Side) (price : UInt32) : Prop :=
  if side = Side.Bid then b.bidLevels.BehindBest price else b.askLevels.BehindBest price

theorem bestOf_eq {b : Book} (h : b.WellFormed) (S : Side) : b.bestOf S = .ok (b.top S, b) := by
  obtain ⟨hbid, hask⟩ := best_eq_top h
  unfold bestOf
  by_cases hS : S = Side.Bid
  · rw [if_pos hS, hS, hbid]
  · have htop : b.top S = b.top Side.Ask := by simp [top, hS]
    rw [if_neg hS, hask, htop]

theorem removeLevel_addLevel {b : Book} (h : b.WellFormed) (side : Side) {level : Level}
    (hfit : ∀ q, b.view side level.price = some q → 0 < q ∧ q.toNat + level.qty.toNat < 2 ^ 64) :
    ∃ added b₁ removed, b.addLevel side level = .ok (added, b₁) ∧
      b₁.removeLevel side level = .ok (removed, b) ∧
      (added.side ≠ Side.None → added.side = side.book ∧
        (b.BehindBest side level.price → removed = BestLvlChange.none) ∧
        (¬ b.BehindBest side level.price →
          removed = ⟨(b.top side.book).qty, (b.top side.book).price, side.book⟩)) := by
  by_cases hside : side = Side.Bid
  · subst hside
    obtain ⟨added, l, removed, hadd, hrem, hreport⟩ :=
      @VectorLevelBSearchSplit.remove_add _ b.bidLevels level.price h.bid level.qty hfit
    have hadd' : b.addLevel Side.Bid level = .ok (added, { b with bidLevels := l }) := by
      rw [addLevel_bid b level rfl, hadd, ok_bind]
    have hrem' : removeLevel { b with bidLevels := l } Side.Bid level = .ok (removed, b) := by
      rw [removeLevel_bid _ level rfl, hrem, ok_bind]
    exact ⟨added, _, removed, hadd', hrem', fun hne =>
      ⟨(addLevel_ok h hadd').2.2.side_eq.resolve_left hne, hreport hne⟩⟩
  · have hview : b.view side = b.askLevels.view := if_neg hside
    have hbook : side.book = Side.Ask := Side.book_eq_ask.mpr hside
    have htop : b.top side.book = b.askLevels.top := by
      rw [hbook]
      rfl
    have hbehind : b.BehindBest side level.price = b.askLevels.BehindBest level.price := if_neg hside
    rw [hview] at hfit
    obtain ⟨added, l, removed, hadd, hrem, hreport⟩ :=
      @VectorLevelBSearchSplit.remove_add _ b.askLevels level.price h.ask level.qty hfit
    have hadd' : b.addLevel side level = .ok (added, { b with askLevels := l }) := by
      rw [addLevel_ask b level hside, hadd, ok_bind]
    have hrem' : removeLevel { b with askLevels := l } side level = .ok (removed, b) := by
      rw [removeLevel_ask _ level hside, hrem, ok_bind]
    refine ⟨added, _, removed, hadd', hrem', fun hne =>
      ⟨(addLevel_ok h hadd').2.2.side_eq.resolve_left hne, ?_⟩⟩
    rw [hbehind, htop, hbook]
    exact hreport hne

theorem erase_emplace {m : Orders} {id : UInt64} (hid : id ∉ m) (o : Order) :
    (m.emplace id o).erase id = m := by
  apply Finmap.ext_lookup
  intro x
  by_cases hx : x = id
  · rw [hx, Finmap.lookup_erase, Finmap.lookup_eq_none.mpr hid]
  · rw [Finmap.lookup_erase_ne hx, Orders.lookup_emplace_ne hx]

/-- **A deletion undoes the addition before it**, and reports the best level that was. -/
theorem delete_undoes_add {ops : List Op} {b : Book} (h : UnboundedRun ops b) {id : UInt64}
    (hid : id ∉ b.ordersMap) (side : Side) {qty : UInt32} (hqty : 0 < qty) {price : UInt32}
    (hfit : liveQty b.ordersMap side.book price + qty.toNat ≤ 2 ^ 64 - 1) :
    ∃ added b₁ removed, b.addOrder id side qty price = .ok (added, b₁) ∧
      b₁.deleteOrder id = .ok (removed, b) ∧
      (added.side ≠ Side.None →
        (b.BehindBest side price → removed = BestLvlChange.none) ∧
        (¬ b.BehindBest side price → ∃ level, b.bestOf added.side = .ok (level, b) ∧
          removed = ⟨level.qty, level.price, added.side⟩)) := by
  have hcong := h.congruent
  have hqn : 0 < qty.toNat := UInt32.lt_iff_toNat_lt.mp hqty
  have hview := hcong.view_eq (S := side) (p := price) (by omega)
  obtain ⟨added, b₁, removed, hadd, hrem, hreport⟩ :=
    @removeLevel_addLevel b hcong.wf side ⟨qty.toUInt64, price⟩ (by
      intro q hq
      dsimp only at hq ⊢
      rw [hview] at hq
      have hsum := levelOf_eq_some (by omega) hq
      have hpos := levelOf_isSome.mp (Option.isSome_of_eq_some hq)
      rw [UInt64.lt_iff_toNat_lt, hsum, UInt32.toNat_toUInt64]
      exact ⟨hpos, by omega⟩)
  have hfind : Finmap.lookup id (b.ordersMap.emplace id ⟨qty, price, side⟩) =
      some ⟨qty, price, side⟩ := Orders.lookup_emplace hid
  have hdelete : deleteOrder { b₁ with ordersMap := b.ordersMap.emplace id ⟨qty, price, side⟩ } id =
      .ok (removed, b) := by
    rw [deleteOrder_eq hfind, removeLevel_setOrders, hrem, ok_bind, ok_bind, erase_emplace hid]
  refine ⟨added, _, removed, ?_, hdelete, fun hne => ?_⟩
  · rw [addOrder, addLevel_setOrders, hadd, ok_bind]
  · obtain ⟨hside, hbehind, hbest⟩ := hreport hne
    refine ⟨hbehind, fun hnot => ⟨_, bestOf_eq hcong.wf added.side, ?_⟩⟩
    rw [hside]
    exact hbest hnot

/-- A second offer at the best price. -/
theorem delete_undoes_add_sample :
    ∃ (b b₁ : Book) (added removed : BestLvlChange), UnboundedRun [.addOrder 1 Side.Ask 5 10] b ∧
      b.addOrder 2 Side.Ask 4 10 = .ok (added, b₁) ∧ b₁.deleteOrder 2 = .ok (removed, b) := by
  have hrun : UnboundedRun [.addOrder 1 Side.Ask 5 10] _ :=
    ⟨rfl, .cons rfl ⟨⟨by decide, by decide⟩, trivial⟩ .nil⟩
  obtain ⟨added, b₁, removed, hadd, hdel, -⟩ :=
    @delete_undoes_add _ _ hrun 2 (by decide) Side.Ask 4 (by decide) 10 (by decide)
  exact ⟨_, b₁, added, removed, hrun, hadd, hdel⟩

end OrderBook

end ItchIngestion.OB
