import ItchIngestion.Book.Aggregation

/-! # The ledger of the orders

The map of orders against the whole history of operations. An id may be introduced many times over;
what counts is its latest introduction (`LatestIntro`) and what came after: an order is live as long
as nothing retired it and less was taken than introduced. `Ledger` is the invariant, and one
operation moves it id by id (`OrdersStep.lookup_intro`, `OrdersStep.lookup_other`).

Nothing here depends on the level store.
-/
namespace ItchIngestion.OB
open Library
set_option autoImplicit false

/-! ## The history of an id -/

/-- A new order, as the feed announces it. -/
structure Introduction where
  orderId : UInt64
  qty : UInt32
  price : UInt32

namespace Op

/-- An addition or a replacement introduces an order. -/
def introduction : Op → Option Introduction
  | .addOrder orderId _ qty price => some ⟨orderId, qty, price⟩
  | .replaceOrder _ newOrderId qty price => some ⟨newOrderId, qty, price⟩
  | _ => none

def Introduces (op : Op) (id : UInt64) : Prop := ∃ i, op.introduction = some i ∧ i.orderId = id

/-- The operation deletes the id or replaces it away. -/
def Retires (id : UInt64) : Op → Prop
  | .replaceOrder orderId .. | .deleteOrder orderId => orderId = id
  | _ => False

/-- Shares executed or cancelled under the id. -/
def taken (id : UInt64) : Op → ℕ
  | .cancelOrder orderId qty | .executeOrder orderId qty => if orderId = id then qty.toNat else 0
  | _ => 0

end Op

/-- The shares that a history takes from the order `id`. -/
def takenSum (id : UInt64) (ops : List Op) : ℕ := (ops.map (Op.taken id)).sum

theorem takenSum_concat (id : UInt64) (ops : List Op) (op : Op) :
    takenSum id (ops ++ [op]) = takenSum id ops + op.taken id := by
  simp [takenSum]

/-- `op`, between `pre` and `post`, is the last operation of `ops` to introduce the id of `i`. -/
structure LatestIntro (ops pre : List Op) (op : Op) (i : Introduction) (post : List Op) : Prop where
  split : ops = pre ++ op :: post
  intro : op.introduction = some i
  latest : ∀ x ∈ post, ¬ x.Introduces i.orderId

/-- The side of the `add_order` at the root of a chain of replacements. -/
inductive RootSide : List Op → Op → Side → Prop
  | addOrder (pre : List Op) (orderId : UInt64) (side : Side) (qty price : UInt32) :
      RootSide pre (.addOrder orderId side qty price) side
  | replaceOrder {pre : List Op} {orderId newOrderId : UInt64} {qty price : UInt32}
      {pre' post' : List Op} {op' : Op} {i' : Introduction} {side : Side}
      (hintro : LatestIntro pre pre' op' i' post') (hid : i'.orderId = orderId)
      (hroot : RootSide pre' op' side) :
      RootSide pre (.replaceOrder orderId newOrderId qty price) side

section Concat
variable {ops pre post : List Op} {op a : Op} {i : Introduction}

theorem LatestIntro.new (ops : List Op) (h : a.introduction = some i) :
    LatestIntro (ops ++ [a]) ops a i [] := ⟨rfl, h, by simp⟩

theorem LatestIntro.concat (h : LatestIntro ops pre op i post) (ha : ¬ a.Introduces i.orderId) :
    LatestIntro (ops ++ [a]) pre op i (post ++ [a]) where
  split := by rw [h.split, List.append_assoc, List.cons_append]
  intro := h.intro
  latest x hx := by
    rw [List.mem_append, List.mem_singleton] at hx
    cases hx with
    | inl hx => exact h.latest x hx
    | inr hx => exact hx ▸ ha

/-- The latest introduction of a longer history is its last operation or an earlier one. -/
theorem LatestIntro.of_concat (h : LatestIntro (ops ++ [a]) pre op i post) :
    (pre = ops ∧ op = a ∧ post = []) ∨
      ∃ post', post = post' ++ [a] ∧ LatestIntro ops pre op i post' ∧ ¬ a.Introduces i.orderId := by
  obtain ⟨hsplit, hintro, hlatest⟩ := h
  rcases split_concat_cons hsplit with ⟨hpre, hop, hpost⟩ | ⟨post', rfl, hops⟩
  · exact Or.inl ⟨hpre, hop, hpost⟩
  · refine Or.inr ⟨post', rfl, ⟨hops, hintro, fun y hy => ?_⟩, hlatest a (by simp)⟩
    exact hlatest y (List.mem_append_left _ hy)

theorem LatestIntro.introduces (h : LatestIntro ops pre op i post) : op.Introduces i.orderId :=
  ⟨i, h.intro, rfl⟩

theorem LatestIntro.unique (h : LatestIntro ops pre op i post) {pre' post' : List Op} {op' : Op}
    {i' : Introduction} (h' : LatestIntro ops pre' op' i' post') (hid : i'.orderId = i.orderId) :
    pre' = pre ∧ op' = op ∧ post' = post := by
  induction ops using List.reverseRecOn generalizing post post' with
  | nil => simpa using h.split
  | append_singleton ops a ih =>
    cases h.of_concat with
    | inl hnew =>
      obtain ⟨rfl, rfl, rfl⟩ := hnew
      cases h'.of_concat with
      | inl hnew' => exact hnew'
      | inr hold' =>
        obtain ⟨_, -, -, hno⟩ := hold'
        exact absurd (hid ▸ h.introduces) hno
    | inr hold =>
      obtain ⟨post₁, rfl, hlatest, hno⟩ := hold
      cases h'.of_concat with
      | inl hnew' =>
        obtain ⟨-, rfl, -⟩ := hnew'
        exact absurd (hid ▸ h'.introduces) hno
      | inr hold' =>
        obtain ⟨post₂, rfl, hlatest', -⟩ := hold'
        obtain ⟨hpre, hop, hpost⟩ := ih hlatest hlatest'
        exact ⟨hpre, hop, by rw [hpost]⟩

end Concat

theorem RootSide.unique {pre : List Op} {op : Op} {side side' : Side} (h : RootSide pre op side)
    (h' : RootSide pre op side') : side' = side := by
  induction h with
  | addOrder => cases h'; rfl
  | replaceOrder hintro hid _ ih =>
    cases h' with
    | replaceOrder hintro' hid' hroot' =>
      obtain ⟨rfl, rfl, -⟩ := hintro.unique hintro' (hid'.trans hid.symm)
      exact ih hroot'

/-! ## What one operation does to one id -/

namespace OrderBook
variable {m m' : Orders} {op : Op} {id : UInt64}

/-- The side with which an operation introduces an order. -/
def IntroSide (m : Orders) (op : Op) (side : Side) : Prop :=
  match op with
  | .addOrder _ s _ _ => s = side
  | .replaceOrder orderId .. => ∃ o, m.lookup orderId = some o ∧ o.side = side
  | _ => False

theorem OrdersStep.lookup_intro (h : OrdersStep m op m') (hfeed : op.Feed m) {i : Introduction}
    (hi : op.introduction = some i) :
    0 < i.qty ∧ ∃ side, m'.lookup i.orderId = some ⟨i.qty, i.price, side⟩ ∧ IntroSide m op side := by
  cases h with
  | addOrder orderId side qty price =>
    cases hi
    exact ⟨hfeed.1, side, Orders.lookup_emplace hfeed.2, rfl⟩
  | @replaceOrder orderId order newOrderId qty price hfind =>
    cases hi
    -- the replaced id is erased before the new one is emplaced, so it may come back
    have hfresh : newOrderId ∉ m.erase orderId := by
      rw [Finmap.mem_erase, not_and]
      exact hfeed.2.resolve_right
    exact ⟨hfeed.1, order.side, Orders.lookup_emplace hfresh, order, hfind, rfl⟩
  | cancelOrder => cases hi
  | executeOrder => cases hi
  | deleteOrder => cases hi

theorem OrdersStep.lookup_retired (h : OrdersStep m op m') (hintro : ¬ op.Introduces id)
    (hret : op.Retires id) : m'.lookup id = none := by
  cases h with
  | replaceOrder newOrderId qty price hfind =>
    have hne : id ≠ newOrderId := fun he => hintro ⟨_, rfl, he.symm⟩
    cases hret
    rw [Orders.lookup_emplace_ne hne, Finmap.lookup_erase]
  | deleteOrder hfind =>
    cases hret
    exact Finmap.lookup_erase _ _
  | addOrder => cases hret
  | cancelOrder => cases hret
  | executeOrder => cases hret

/-- What is left of an order after `n` of its shares were taken. -/
def Remains (m' : Orders) (id : UInt64) (o : Order) (n : ℕ) : Prop :=
  n ≤ o.qty.toNat ∧
    if n = o.qty.toNat then m'.lookup id = none
    else ∃ o', m'.lookup id = some o' ∧ o'.qty.toNat + n = o.qty.toNat ∧ o'.price = o.price ∧
      o'.side = o.side

theorem remains_unchanged {o : Order} (ho : 0 < o.qty) (h : m'.lookup id = some o) :
    Remains m' id o 0 := by
  have hpos : 0 < o.qty.toNat := UInt32.lt_iff_toNat_lt.mp ho
  refine ⟨Nat.zero_le _, ?_⟩
  rw [if_neg (by omega)]
  exact ⟨o, h, rfl, rfl, rfl⟩

theorem remains_reduce {o o₁ : Order} {orderId : UInt64} {qty : UInt32}
    (hfind : m.lookup orderId = some o₁) (hq : qty ≤ o₁.qty) (hid : m.lookup id = some o)
    (ho : 0 < o.qty) :
    Remains (m.reduce orderId o₁ qty) id o (if orderId = id then qty.toNat else 0) := by
  by_cases he : orderId = id
  · subst he
    rw [hfind] at hid
    cases hid
    have hsub : (o.qty - qty).toNat = o.qty.toNat - qty.toNat := UInt32.toNat_sub_of_le _ _ hq
    have hqn : qty.toNat ≤ o.qty.toNat := UInt32.le_iff_toNat_le.mp hq
    have hz : o.qty - qty = 0 ↔ qty.toNat = o.qty.toNat := by
      rw [← UInt32.toNat_inj, hsub, UInt32.toNat_zero]
      omega
    rw [if_pos rfl]
    refine ⟨hqn, ?_⟩
    rw [Orders.lookup_reduce]
    by_cases hall : qty.toNat = o.qty.toNat
    · rw [if_pos hall, if_pos (hz.mpr hall)]
    · rw [if_neg hall, if_neg (mt hz.mp hall)]
      exact ⟨_, rfl, by dsimp only; omega, rfl, rfl⟩
  · rw [if_neg he]
    exact remains_unchanged ho (by rw [Orders.lookup_reduce_ne (Ne.symm he), hid])

theorem OrdersStep.lookup_other (h : OrdersStep m op m') (hintro : ¬ op.Introduces id)
    (hret : ¬ op.Retires id) {o : Order} (hid : m.lookup id = some o) (ho : 0 < o.qty) :
    Remains m' id o (op.taken id) := by
  cases h with
  | addOrder orderId side qty price =>
    have hne : id ≠ orderId := fun he => hintro ⟨_, rfl, he.symm⟩
    exact remains_unchanged ho (by rw [Orders.lookup_emplace_ne hne, hid])
  | cancelOrder hfind hq => exact remains_reduce hfind hq hid ho
  | executeOrder hfind hq => exact remains_reduce hfind hq hid ho
  | replaceOrder newOrderId qty price hfind =>
    have hne : id ≠ newOrderId := fun he => hintro ⟨_, rfl, he.symm⟩
    refine remains_unchanged ho ?_
    rw [Orders.lookup_emplace_ne hne, Finmap.lookup_erase_ne (Ne.symm hret), hid]
  | deleteOrder hfind =>
    exact remains_unchanged ho (by rw [Finmap.lookup_erase_ne (Ne.symm hret), hid])

theorem OrdersStep.lookup_absent (h : OrdersStep m op m') (hintro : ¬ op.Introduces id)
    (hid : m.lookup id = none) : m'.lookup id = none := by
  have hreduce : ∀ {orderId : UInt64} {o : Order} {qty : UInt32}, m.lookup orderId = some o →
      (m.reduce orderId o qty).lookup id = none := by
    intro orderId o qty hfind
    have hne : id ≠ orderId := by
      rintro rfl
      rw [hid] at hfind
      cases hfind
    rw [Orders.lookup_reduce_ne hne, hid]
  have herase : ∀ orderId, (m.erase orderId).lookup id = none := by
    intro orderId
    by_cases he : id = orderId
    · rw [he, Finmap.lookup_erase]
    · rw [Finmap.lookup_erase_ne he, hid]
  cases h with
  | addOrder orderId side qty price =>
    have hne : id ≠ orderId := fun he => hintro ⟨_, rfl, he.symm⟩
    rw [Orders.lookup_emplace_ne hne, hid]
  | cancelOrder hfind hq => exact hreduce hfind
  | executeOrder hfind hq => exact hreduce hfind
  | replaceOrder newOrderId qty price hfind =>
    have hne : id ≠ newOrderId := fun he => hintro ⟨_, rfl, he.symm⟩
    rw [Orders.lookup_emplace_ne hne, herase]
  | deleteOrder hfind => exact herase _

/-! ## The invariant -/

/-- The state of one id against its latest introduction. -/
def Settled (m : Orders) (pre : List Op) (op : Op) (i : Introduction) (post : List Op) : Prop :=
  match m.lookup i.orderId with
  | some o => (∀ x ∈ post, ¬ x.Retires i.orderId) ∧ 0 < o.qty ∧
      o.qty.toNat + takenSum i.orderId post = i.qty.toNat ∧ o.price = i.price ∧ RootSide pre op o.side
  | none => (∃ x ∈ post, x.Retires i.orderId) ∨ i.qty.toNat ≤ takenSum i.orderId post

/-- The live orders are the ones that a history has introduced and not yet used up or retired. -/
structure Ledger (ops : List Op) (m : Orders) : Prop where
  known : ∀ id ∈ m, ∃ pre op i post, LatestIntro ops pre op i post ∧ i.orderId = id
  settled : ∀ pre op i post, LatestIntro ops pre op i post → Settled m pre op i post

theorem empty_ledger : Ledger [] ∅ where
  known id hid := absurd hid (Finmap.notMem_empty)
  settled pre op i post h := by
    have := h.split
    simp at this

section Step
variable {ops pre post : List Op} {i : Introduction} {intro : Op}

theorem Ledger.rootSide (h : Ledger ops m) {side : Side} (hside : IntroSide m op side) :
    RootSide ops op side := by
  cases op with
  | addOrder orderId s qty price =>
    cases hside
    exact .addOrder ops orderId side qty price
  | replaceOrder orderId newOrderId qty price =>
    obtain ⟨o, hfind, rfl⟩ := hside
    obtain ⟨pre', op', i', post', hlatest, rfl⟩ := h.known _ (Finmap.mem_of_lookup_eq_some hfind)
    have hsettled := h.settled _ _ _ _ hlatest
    rw [Settled, hfind] at hsettled
    exact .replaceOrder hlatest rfl hsettled.2.2.2.2
  | cancelOrder => cases hside
  | executeOrder => cases hside
  | deleteOrder => cases hside

theorem settled_intro (h : Ledger ops m) (hstep : OrdersStep m op m') (hfeed : op.Feed m)
    (hi : op.introduction = some i) : Settled m' ops op i [] := by
  obtain ⟨hq, side, hfind, hside⟩ := hstep.lookup_intro hfeed hi
  rw [Settled, hfind]
  exact ⟨by simp, hq, by simp [takenSum], rfl, h.rootSide hside⟩

theorem settled_concat (hstep : OrdersStep m op m') (hno : ¬ op.Introduces i.orderId)
    (h : Settled m pre intro i post) : Settled m' pre intro i (post ++ [op]) := by
  unfold Settled at h
  cases hfind : m.lookup i.orderId with
  | none =>
    rw [hfind] at h
    rw [Settled, hstep.lookup_absent hno hfind, takenSum_concat]
    cases h with
    | inl hret =>
      obtain ⟨x, hx, hret⟩ := hret
      exact Or.inl ⟨x, List.mem_append_left _ hx, hret⟩
    | inr hall => exact Or.inr (by omega)
  | some o =>
    rw [hfind] at h
    obtain ⟨hlive, hpos, hsum, hprice, hroot⟩ := h
    by_cases hret : op.Retires i.orderId
    · rw [Settled, hstep.lookup_retired hno hret]
      exact Or.inl ⟨op, by simp, hret⟩
    · obtain ⟨hle, hrest⟩ := hstep.lookup_other hno hret hfind hpos
      rw [Settled, takenSum_concat]
      split at hrest
      · rename_i hall
        rw [hrest]
        exact Or.inr (by omega)
      · obtain ⟨o', hfind', hqty, hprice', hside'⟩ := hrest
        rw [hfind']
        refine ⟨fun x hx => ?_, ?_, by omega, hprice'.trans hprice, hside' ▸ hroot⟩
        · rw [List.mem_append, List.mem_singleton] at hx
          cases hx with
          | inl hx => exact hlive x hx
          | inr hx => exact hx ▸ hret
        · rw [UInt32.lt_iff_toNat_lt, UInt32.toNat_zero]
          omega

/-- **One operation keeps the ledger.** -/
theorem Ledger.step (h : Ledger ops m) (hstep : OrdersStep m op m') (hfeed : op.Feed m) :
    Ledger (ops ++ [op]) m' where
  known id hid := by
    by_cases hno : op.Introduces id
    · obtain ⟨i, hi, rfl⟩ := hno
      exact ⟨ops, op, i, [], .new ops hi, rfl⟩
    · have hmem : id ∈ m := by
        by_contra hout
        have hnone := hstep.lookup_absent hno (Finmap.lookup_eq_none.mpr hout)
        exact Finmap.lookup_eq_none.mp hnone hid
      obtain ⟨pre, op', i, post, hlatest, rfl⟩ := h.known id hmem
      exact ⟨pre, op', i, post ++ [op], hlatest.concat hno, rfl⟩
  settled pre op' i post hlatest := by
    cases hlatest.of_concat with
    | inl hnew =>
      obtain ⟨rfl, rfl, rfl⟩ := hnew
      exact settled_intro h hstep hfeed hlatest.intro
    | inr hold =>
      obtain ⟨post', rfl, hlatest', hno⟩ := hold
      exact settled_concat hstep hno (h.settled _ _ _ _ hlatest')

end Step

end OrderBook

/-! ## Conservation of shares -/

namespace Op

/-- The shares that an operation brings. -/
def introduced (op : Op) : ℕ := op.introduction.elim 0 fun i => i.qty.toNat

/-- The shares that an execution takes. -/
def executed : Op → ℕ
  | .executeOrder _ qty => qty.toNat
  | _ => 0

/-- The shares that a cancellation takes. -/
def cancelled : Op → ℕ
  | .cancelOrder _ qty => qty.toNat
  | _ => 0

/-- What a deletion removes from the book. -/
def deleted (m : Orders) : Op → ℕ
  | .deleteOrder orderId => (m.lookup orderId).elim 0 fun o => o.qty.toNat
  | _ => 0

/-- What a replacement removes from the book. -/
def replaced (m : Orders) : Op → ℕ
  | .replaceOrder orderId .. => (m.lookup orderId).elim 0 fun o => o.qty.toNat
  | _ => 0

end Op

/-- The shares in the map of orders. -/
def held (m : Orders) : ℕ := total m fun o => o.qty.toNat

theorem held_reduce {m : Orders} {orderId : UInt64} {o : Order} {qty : UInt32}
    (hfind : m.lookup orderId = some o) (hq : qty ≤ o.qty) :
    held (m.reduce orderId o qty) + qty.toNat = held m := by
  have htotal := Orders.total_reduce hfind qty fun o => o.qty.toNat
  have hsub : (o.qty - qty).toNat = o.qty.toNat - qty.toNat := UInt32.toNat_sub_of_le _ _ hq
  have hqn : qty.toNat ≤ o.qty.toNat := UInt32.le_iff_toNat_le.mp hq
  rw [← held, ← held] at htotal
  by_cases hz : o.qty - qty = 0
  · have hz' : o.qty.toNat - qty.toNat = 0 := by rw [← hsub, hz]; rfl
    rw [if_pos hz] at htotal
    omega
  · rw [if_neg hz] at htotal
    dsimp only at htotal
    omega

namespace OrderBook

theorem OrdersStep.conserves {m m' : Orders} {op : Op} (h : OrdersStep m op m')
    (hfeed : op.Feed m) :
    held m + op.introduced =
      held m' + op.executed + op.cancelled + op.deleted m + op.replaced m := by
  have herase : ∀ {orderId : UInt64} {o : Order}, m.lookup orderId = some o →
      held m = o.qty.toNat + held (m.erase orderId) := fun hfind => total_erase hfind _
  cases h with
  | addOrder orderId side qty price =>
    have hins : held (m.emplace orderId ⟨qty, price, side⟩) = qty.toNat + held m := by
      rw [Orders.emplace, if_neg hfeed.2, held, total_insert hfeed.2, held]
    simp only [Op.introduced, Op.introduction, Op.executed, Op.cancelled, Op.deleted, Op.replaced,
      Option.elim, hins]
    omega
  | cancelOrder hfind hq =>
    have := held_reduce hfind hq
    simp only [Op.introduced, Op.introduction, Op.executed, Op.cancelled, Op.deleted, Op.replaced,
      Option.elim]
    omega
  | executeOrder hfind hq =>
    have := held_reduce hfind hq
    simp only [Op.introduced, Op.introduction, Op.executed, Op.cancelled, Op.deleted, Op.replaced,
      Option.elim]
    omega
  | @replaceOrder orderId order newOrderId qty price hfind =>
    have hfresh : newOrderId ∉ m.erase orderId := by
      rw [Finmap.mem_erase, not_and]
      exact hfeed.2.resolve_right
    have hins : held (Orders.emplace (m.erase orderId) newOrderId ⟨qty, price, order.side⟩) =
        qty.toNat + held (m.erase orderId) := by
      rw [Orders.emplace, if_neg hfresh, held, total_insert hfresh, held]
    have := herase hfind
    simp only [Op.introduced, Op.introduction, Op.executed, Op.cancelled, Op.deleted, Op.replaced,
      Option.elim, hins, hfind]
    omega
  | deleteOrder hfind =>
    have := herase hfind
    simp only [Op.introduced, Op.introduction, Op.executed, Op.cancelled, Op.deleted, Op.replaced,
      Option.elim, hfind]
    omega

/-! ## Runs -/

variable {Levels : Side → Type} [LevelStore Levels]

/-- Shares introduced are shares executed, cancelled, deleted, replaced away or still there. -/
def Conserved (ops : List Op) (b : OrderBook Levels) : Prop :=
  (ops.map Op.introduced).sum =
    (ops.map Op.executed).sum + (ops.map Op.cancelled).sum +
      runSum step (fun (b : OrderBook Levels) op => op.deleted b.ordersMap) empty ops +
      runSum step (fun (b : OrderBook Levels) op => op.replaced b.ordersMap) empty ops +
      held b.ordersMap

theorem run_ledger {ops : List Op} {b : OrderBook Levels} (hrun : run step empty ops = .ok b)
    (hfeed : Along step (fun b op => op.Feed b.ordersMap) (empty : OrderBook Levels) ops) :
    run step empty ops = .ok b ∧ Ledger ops b.ordersMap ∧ Conserved ops b := by
  refine run_induction (Q := fun _ => True) (fun ops (b : OrderBook Levels) =>
    run step empty ops = .ok b ∧ Ledger ops b.ordersMap ∧ Conserved ops b)
    ⟨rfl, empty_ledger, rfl⟩ ?_ hfeed (fun _ _ _ _ _ => trivial) hrun
  rintro ops b op b' ⟨hpre, hledger, hsum⟩ hop - hstep
  obtain ⟨change, happly⟩ := step_ok hstep
  have horders : OrdersStep b.ordersMap op b'.ordersMap := apply_orders happly
  refine ⟨(run_concat hpre op).trans hstep, hledger.step horders hop, ?_⟩
  have hone := horders.conserves hop
  unfold Conserved at hsum ⊢
  rw [runSum_concat _ hpre, runSum_concat _ hpre]
  simp only [List.map_append, List.map_cons, List.map_nil, List.sum_append, List.sum_cons,
    List.sum_nil]
  omega

/-- **The order ledger law.** -/
theorem order_ledger {ops : List Op} {b : OrderBook Levels} (hrun : run step empty ops = .ok b)
    (hfeed : Along step (fun b op => op.Feed b.ordersMap) (empty : OrderBook Levels) ops) :
    (∀ id, id ∈ b.ordersMap ↔ ∃ pre op i post, LatestIntro ops pre op i post ∧ i.orderId = id ∧
      (∀ x ∈ post, ¬ x.Retires id) ∧ takenSum id post < i.qty.toNat) ∧
    (∀ pre op i post o, LatestIntro ops pre op i post → b.ordersMap.lookup i.orderId = some o →
      o.qty.toNat = i.qty.toNat - takenSum i.orderId post ∧ o.price = i.price ∧
        RootSide pre op o.side) ∧
    Conserved ops b := by
  obtain ⟨-, hledger, hsum⟩ := run_ledger hrun hfeed
  refine ⟨fun id => ⟨fun hid => ?_, ?_⟩, fun pre op i post o hlatest hfind => ?_, hsum⟩
  · obtain ⟨pre, op, i, post, hlatest, rfl⟩ := hledger.known id hid
    obtain ⟨o, hfind⟩ := Finmap.mem_iff.mp hid
    have hsettled := hledger.settled _ _ _ _ hlatest
    rw [Settled, hfind] at hsettled
    obtain ⟨hlive, hpos, hqty, -⟩ := hsettled
    have hpos' : 0 < o.qty.toNat := UInt32.lt_iff_toNat_lt.mp hpos
    exact ⟨pre, op, i, post, hlatest, rfl, hlive, by omega⟩
  · rintro ⟨pre, op, i, post, hlatest, rfl, hlive, hlt⟩
    by_contra hout
    have hsettled := hledger.settled _ _ _ _ hlatest
    rw [Settled, Finmap.lookup_eq_none.mpr hout] at hsettled
    cases hsettled with
    | inl hret =>
      obtain ⟨x, hx, hret⟩ := hret
      exact hlive x hx hret
    | inr hall => omega
  · have hsettled := hledger.settled _ _ _ _ hlatest
    rw [Settled, hfind] at hsettled
    obtain ⟨-, -, hqty, hprice, hroot⟩ := hsettled
    exact ⟨by omega, hprice, hroot⟩

/-- A partly filled order, replaced under its own id and under another. -/
theorem order_ledger_sample :
    ∃ b : Book, run step empty [.addOrder 7 Side.Ask 100 10, .executeOrder 7 40,
      .replaceOrder 7 7 80 12, .cancelOrder 7 30, .replaceOrder 7 9 20 11] = .ok b ∧
      Conserved [.addOrder 7 Side.Ask 100 10, .executeOrder 7 40, .replaceOrder 7 7 80 12,
        .cancelOrder 7 30, .replaceOrder 7 9 20 11] b := by
  refine ⟨_, rfl, (order_ledger rfl ?_).2.2⟩
  exact .cons rfl ⟨by decide, by decide⟩ <| .cons rfl trivial <|
    .cons rfl ⟨by decide, Or.inr rfl⟩ <| .cons rfl trivial <|
    .cons rfl ⟨by decide, Or.inl (by decide)⟩ .nil

end OrderBook

end ItchIngestion.OB
