import ItchIngestion.Book.ValidFeed
import ItchIngestion.Library.Independence

/-! # Independent operations commute

An operation touches the entries of the map of orders whose ids it names, and nothing else
(`effect_frame`, `effect_congr`). So operations without a common id commute on the map, and valid
runs may be rearranged as long as the order of the operations at each id stays. The stores follow:
the sorted columns of a book that shows the sums of its live orders are determined by its map
(`tallies_unique`).

The map knows no bound on the number of orders, the 64-bit levels do. Rearranged, a valid run can
hold more live orders at a time than before; with `2 ^ 32 + 2` of them a level wraps (`adds_first_abort`).
-/
namespace ItchIngestion.OB
open Library
set_option autoImplicit false

/-! ## Operations on the map alone -/

namespace Op

/-- The order ids that an operation names. -/
def ids : Op → List UInt64
  | .addOrder orderId .. | .cancelOrder orderId _ | .executeOrder orderId _ | .deleteOrder orderId =>
    [orderId]
  | .replaceOrder orderId newOrderId .. => [orderId, newOrderId]

/-- The operation touches the order `id`. -/
def uses (id : UInt64) (op : Op) : Bool := decide (id ∈ op.ids)

/-- The map of orders after an operation that returned. -/
def effect (m : Orders) : Op → Orders
  | .addOrder orderId side qty price => m.emplace orderId ⟨qty, price, side⟩
  | .cancelOrder orderId qty | .executeOrder orderId qty =>
    match m.lookup orderId with
    | some order => m.reduce orderId order qty
    | none => m
  | .replaceOrder orderId newOrderId qty price =>
    match m.lookup orderId with
    | some order => Orders.emplace (m.erase orderId) newOrderId ⟨qty, price, order.side⟩
    | none => m
  | .deleteOrder orderId => m.erase orderId

variable {m m' : Orders} {op : Op} {x : UInt64}

theorem effect_frame (hx : x ∉ op.ids) : (op.effect m).lookup x = m.lookup x := by
  cases op with
  | addOrder orderId side qty price =>
    have hne : x ≠ orderId := by simpa [ids] using hx
    exact Orders.lookup_emplace_ne hne
  | cancelOrder orderId qty | executeOrder orderId qty =>
    have hne : x ≠ orderId := by simpa [ids] using hx
    rw [effect]
    split
    · exact Orders.lookup_reduce_ne hne
    · rfl
  | replaceOrder orderId newOrderId qty price =>
    have hne : x ≠ orderId ∧ x ≠ newOrderId := by simpa [ids] using hx
    rw [effect]
    split
    · rw [Orders.lookup_emplace_ne hne.2, Finmap.lookup_erase_ne hne.1]
    · rfl
  | deleteOrder orderId =>
    have hne : x ≠ orderId := by simpa [ids] using hx
    exact Finmap.lookup_erase_ne hne

theorem mem_congr (h : m.lookup x = m'.lookup x) : x ∈ m ↔ x ∈ m' := by
  rw [← Finmap.lookup_isSome, ← Finmap.lookup_isSome, h]

theorem lookup_emplace_congr {id : UInt64} (o : Order) (hid : m.lookup id = m'.lookup id)
    (hx : m.lookup x = m'.lookup x) : (m.emplace id o).lookup x = (m'.emplace id o).lookup x := by
  by_cases hxid : x = id
  · subst hxid
    by_cases hmem : x ∈ m
    · rw [Orders.emplace, if_pos hmem, Orders.emplace, if_pos ((mem_congr hx).mp hmem), hx]
    · rw [Orders.lookup_emplace hmem, Orders.lookup_emplace (mt (mem_congr hx).mpr hmem)]
  · rw [Orders.lookup_emplace_ne hxid, Orders.lookup_emplace_ne hxid, hx]

theorem lookup_erase_congr (id : UInt64) (hx : m.lookup x = m'.lookup x) :
    (m.erase id).lookup x = (m'.erase id).lookup x := by
  by_cases hxid : x = id
  · subst hxid
    rw [Finmap.lookup_erase, Finmap.lookup_erase]
  · rw [Finmap.lookup_erase_ne hxid, Finmap.lookup_erase_ne hxid, hx]

theorem lookup_reduce_congr (id : UInt64) (o : Order) (qty : UInt32) (hx : m.lookup x = m'.lookup x) :
    (m.reduce id o qty).lookup x = (m'.reduce id o qty).lookup x := by
  by_cases hxid : x = id
  · subst hxid
    rw [Orders.lookup_reduce, Orders.lookup_reduce]
  · rw [Orders.lookup_reduce_ne hxid, Orders.lookup_reduce_ne hxid, hx]

section Local
variable (h : ∀ y ∈ op.ids, m.lookup y = m'.lookup y)
include h

theorem effect_congr (hx : x ∈ op.ids) : (op.effect m).lookup x = (op.effect m').lookup x := by
  cases op with
  | addOrder orderId side qty price =>
    exact lookup_emplace_congr _ (h orderId (by simp [ids])) (h x hx)
  | cancelOrder orderId qty | executeOrder orderId qty =>
    rw [effect, effect, h orderId (by simp [ids])]
    split
    · exact lookup_reduce_congr _ _ _ (h x hx)
    · exact h x hx
  | replaceOrder orderId newOrderId qty price =>
    rw [effect, effect, h orderId (by simp [ids])]
    split
    · exact lookup_emplace_congr _ (lookup_erase_congr _ (h newOrderId (by simp [ids])))
        (lookup_erase_congr _ (h x hx))
    · exact h x hx
  | deleteOrder orderId => exact lookup_erase_congr _ (h x hx)

theorem valid_congr : op.Valid m ↔ op.Valid m' := by
  cases op with
  | addOrder orderId side qty price =>
    simp only [Valid, Feed, mem_congr (h orderId (by simp [ids]))]
  | cancelOrder orderId qty | executeOrder orderId qty =>
    simp only [Valid, Feed, h orderId (by simp [ids])]
  | replaceOrder orderId newOrderId qty price =>
    simp only [Valid, Feed, mem_congr (h orderId (by simp [ids])),
      mem_congr (h newOrderId (by simp [ids]))]
  | deleteOrder orderId => simp only [Valid, Feed, mem_congr (h orderId (by simp [ids]))]

end Local

/-- Validity is a matter of the entries the operation names. -/
instance (m : Orders) (op : Op) : Decidable (op.Valid m) := by
  cases op with
  | addOrder orderId side qty price =>
    exact inferInstanceAs (Decidable ((0 < qty ∧ orderId ∉ m) ∧ True))
  | cancelOrder orderId qty | executeOrder orderId qty =>
    exact inferInstanceAs (Decidable (True ∧ ∃ order ∈ m.lookup orderId, qty ≤ order.qty))
  | replaceOrder orderId newOrderId qty price =>
    exact inferInstanceAs
      (Decidable ((0 < qty ∧ (newOrderId ∉ m ∨ newOrderId = orderId)) ∧ orderId ∈ m))
  | deleteOrder orderId => exact inferInstanceAs (Decidable (True ∧ orderId ∈ m))

end Op

/-- The map as a machine of its own; an operation that is not valid is refused. -/
def Orders.step (m : Orders) (op : Op) : Except Unit Orders :=
  if op.Valid m then .ok (op.effect m) else .error ()

theorem Orders.step_ok {m m' : Orders} {op : Op} :
    m.step op = .ok m' ↔ op.Valid m ∧ op.effect m = m' := by
  unfold Orders.step
  split
  · rename_i h
    rw [Except.ok.injEq, and_iff_right h]
  · rename_i h
    exact iff_of_false (fun e => by cases e) (fun e => h e.1)

/-- **Operations without a common id commute on the map.** -/
theorem Orders.swaps : Swaps Orders.step Op.uses := by
  intro m a b m₁ m₂ hab ha hb
  obtain ⟨hva, rfl⟩ := Orders.step_ok.mp ha
  obtain ⟨hvb, rfl⟩ := Orders.step_ok.mp hb
  have hdisjoint : ∀ x ∈ a.ids, x ∉ b.ids := by
    intro x hx
    simpa [Op.uses] using hab x (by simpa [Op.uses] using hx)
  have hframe_b : ∀ x ∈ a.ids, m.lookup x = (b.effect m).lookup x := fun x hx =>
    (Op.effect_frame (hdisjoint x hx)).symm
  have hframe_a : ∀ x ∈ b.ids, m.lookup x = (a.effect m).lookup x := fun x hx =>
    (Op.effect_frame fun h => hdisjoint x h hx).symm
  refine ⟨b.effect m, Orders.step_ok.mpr ⟨(Op.valid_congr hframe_a).mpr hvb, rfl⟩,
    Orders.step_ok.mpr ⟨(Op.valid_congr hframe_b).mp hva, ?_⟩⟩
  apply Finmap.ext_lookup
  intro x
  by_cases hxa : x ∈ a.ids
  · rw [Op.effect_frame (hdisjoint x hxa), ← Op.effect_congr hframe_b hxa]
  · rw [Op.effect_frame hxa]
    by_cases hxb : x ∈ b.ids
    · rw [Op.effect_congr hframe_a hxb]
    · rw [Op.effect_frame hxb, Op.effect_frame hxb, Op.effect_frame hxa]

/-! ## The book over its map -/

namespace OrderBook

theorem ordersStep_effect {m m' : Orders} {op : Op} (h : OrdersStep m op m') : op.effect m = m' := by
  cases h with
  | addOrder => rfl
  | cancelOrder hfind => rw [Op.effect, hfind]
  | executeOrder hfind => rw [Op.effect, hfind]
  | replaceOrder newOrderId qty price hfind => rw [Op.effect, hfind]
  | deleteOrder => rfl

/-- Two books that show the sums of the same live orders are the same, element by element. -/
theorem tallies_unique {b b' : Book} (h : b.Tallies) (h' : b'.Tallies)
    (hm : b.ordersMap = b'.ordersMap) : b = b' := by
  refine eq_of_views h.wf h'.wf hm fun S p => ?_
  rw [h.shows, h'.shows, hm]

/-- Every operation of the run is valid, and there are never `2 ^ 32` live orders. -/
structure ValidRun (ops : List Op) (b : Book) : Prop where
  run : run step empty ops = .ok b
  valid : Along step (fun b op => op.Valid b.ordersMap) (empty : Book) ops
  few : Throughout step (fun b => size b.ordersMap < 2 ^ 32) (empty : Book) ops

theorem ValidRun.aggregates {ops : List Op} {b : Book} (h : ValidRun ops b) : b.Aggregates :=
  FeedRun.aggregates ⟨h.run, h.valid.imp fun _ _ hvalid => hvalid.1, h.few⟩

theorem step_effect {b b' : Book} {op : Op} (h : step b op = .ok b') :
    op.effect b.ordersMap = b'.ordersMap := by
  obtain ⟨change, happly⟩ := step_ok h
  exact ordersStep_effect (apply_orders happly)

theorem ValidRun.orders {ops : List Op} {b : Book} (h : ValidRun ops b) :
    Library.run Orders.step ∅ ops = .ok b.ordersMap := by
  refine run_induction (Q := fun _ => True)
    (fun ops b => Library.run Orders.step ∅ ops = .ok b.ordersMap) rfl ?_ h.valid
    (fun _ _ _ _ _ => trivial) h.run
  rintro ops b op b' hinv hvalid - hstep
  exact (run_concat hinv op).trans (Orders.step_ok.mpr ⟨hvalid, step_effect hstep⟩)

/-- What the map survives, the book survives while it has few orders. -/
theorem validRun_of_orders {ops : List Op} {m : Orders} (h : Library.run Orders.step ∅ ops = .ok m)
    (hfew : Throughout step (fun b => size b.ordersMap < 2 ^ 32) (empty : Book) ops) :
    ∃ b, ValidRun ops b ∧ b.ordersMap = m := by
  induction ops using List.reverseRecOn generalizing m with
  | nil =>
    cases h
    exact ⟨empty, ⟨rfl, Along.nil, hfew⟩, rfl⟩
  | append_singleton ops op ih =>
    obtain ⟨m₁, h₁, hop⟩ := run_concat_ok h
    obtain ⟨hvalid, rfl⟩ := Orders.step_ok.mp hop
    obtain ⟨b, hb, rfl⟩ := ih h₁ hfew.left
    obtain ⟨change, b', happly, -⟩ := apply_valid hb.aggregates hvalid
    have hstep : step b op = .ok b' := by rw [step, happly]; rfl
    exact ⟨b', ⟨(run_concat hb.run op).trans hstep, hb.valid.concat hb.run hvalid, hfew⟩,
      (step_effect hstep).symm⟩

theorem OrdersStep.size_le {m m' : Orders} {op : Op} (h : OrdersStep m op m') :
    size m' ≤ size m + 1 := by
  cases h with
  | addOrder orderId side qty price => exact Orders.size_emplace_le
  | cancelOrder hfind | executeOrder hfind => exact (Orders.size_reduce_le hfind _).trans (Nat.le_succ _)
  | replaceOrder newOrderId qty price hfind =>
    exact (Orders.size_emplace_le.trans (size_erase hfind).ge).trans (Nat.le_succ _)
  | deleteOrder hfind => exact (Nat.le_succ _).trans ((size_erase hfind).ge.trans (Nat.le_succ _))

/-! ## The two statements -/

/-- A neighbouring pair swapped: between the two there may be one live order more than before. -/
theorem ValidRun.swap {ops : List Op} {a b : Op} {book₀ book₂ : Book} (h₀ : ValidRun ops book₀)
    (h : ValidRun (ops ++ [a, b]) book₂) (hab : a.ids.Disjoint b.ids) :
    b.Valid book₀.ordersMap ∧
      ∃ book₁, step book₀ b = .ok book₁ ∧ a.Valid book₁.ordersMap ∧ step book₁ a = .ok book₂ := by
  have hmaps := h.orders
  rw [run_append_of_ok h₀.orders] at hmaps
  obtain ⟨m₁, ha, hmaps⟩ := run_cons_ok.mp hmaps
  obtain ⟨m₂, hb, hmaps⟩ := run_cons_ok.mp hmaps
  cases hmaps
  have hind : Independent Op.uses a b := by
    intro id hid
    have hida : id ∈ a.ids := by simpa [Op.uses] using hid
    simpa [Op.uses] using hab hida
  obtain ⟨m', hb', ha'⟩ := Orders.swaps _ a b _ _ hind ha hb
  obtain ⟨hvb, rfl⟩ := Orders.step_ok.mp hb'
  obtain ⟨hva, heffect⟩ := Orders.step_ok.mp ha'
  have haggr := h₀.aggregates
  obtain ⟨change, book₁, happly₁, htallies₁⟩ :=
    apply_tallies haggr.tallies (liveQty_lt haggr.few.le) hvb
  have hstep₁ : step book₀ b = .ok book₁ := by rw [step, happly₁]; rfl
  have hsize : size book₁.ordersMap ≤ 2 ^ 32 := by
    have hle := (apply_orders happly₁).size_le
    have hfew := haggr.few
    omega
  rw [step_effect hstep₁] at hva heffect
  obtain ⟨change₂, book₂', happly₂, htallies₂⟩ := apply_tallies htallies₁ (liveQty_lt hsize) hva
  have hstep₂ : step book₁ a = .ok book₂' := by rw [step, happly₂]; rfl
  refine ⟨hvb, book₁, hstep₁, hva, ?_⟩
  rw [hstep₂, tallies_unique htallies₂ h.aggregates.tallies]
  rw [← step_effect hstep₂, heffect]

/-- A rearranged run, with the operations on each id in the order they had. -/
theorem ValidRun.reorder {ops ops' : List Op} {b : Book} (h : ValidRun ops b)
    (hsame : ∀ id, ops.filter (Op.uses id) = ops'.filter (Op.uses id))
    (hfew : Throughout step (fun b => size b.ordersMap < 2 ^ 32) (empty : Book) ops') :
    ValidRun ops' b := by
  have huses : ∀ op : Op, ∃ id, Op.uses id op = true := by
    intro op
    cases op <;> exact ⟨_, decide_eq_true List.mem_cons_self⟩
  have hmap := run_of_projections Orders.swaps huses hsame h.orders
  obtain ⟨b', hb', hm⟩ := validRun_of_orders hmap hfew
  rwa [tallies_unique h.aggregates.tallies hb'.aggregates.tallies hm.symm]

/-- **Independent operations commute**, next to each other and across a run. -/
theorem independent_operations_commute :
    (∀ ops (a b : Op) (book₀ book₂ : Book), ValidRun ops book₀ → ValidRun (ops ++ [a, b]) book₂ →
      a.ids.Disjoint b.ids → b.Valid book₀.ordersMap ∧
        ∃ book₁, step book₀ b = .ok book₁ ∧ a.Valid book₁.ordersMap ∧ step book₁ a = .ok book₂) ∧
    ∀ ops ops' (b : Book), ValidRun ops b →
      (∀ id, ops.filter (Op.uses id) = ops'.filter (Op.uses id)) →
      Throughout step (fun b => size b.ordersMap < 2 ^ 32) (empty : Book) ops' → ValidRun ops' b :=
  ⟨fun _ _ _ _ _ h₀ h hab => h₀.swap h hab, fun _ _ _ h hsame hfew => h.reorder hsame hfew⟩

theorem two_orders_swapped :
    ∃ b, ValidRun [.addOrder 2 Side.Ask 7 11, .addOrder 1 Side.Bid 5 10] b := by
  obtain ⟨b, hrun⟩ : ∃ b, ValidRun [.addOrder 1 Side.Bid 5 10, .addOrder 2 Side.Ask 7 11] b :=
    ⟨_, rfl,
      .cons rfl ⟨⟨by decide, by decide⟩, trivial⟩ <| .cons rfl ⟨⟨by decide, by decide⟩, trivial⟩ .nil,
      .cons rfl (by decide) <| .cons rfl (by decide) <| .nil (by decide)⟩
  refine ⟨b, independent_operations_commute.2 _ _ b hrun (fun id => ?_) ?_⟩
  · by_cases h₁ : id = 1
    · subst h₁
      rfl
    by_cases h₂ : id = 2
    · subst h₂
      rfl
    simp [Op.uses, Op.ids, h₁, h₂]
  · exact .cons rfl (by decide) <| .cons rfl (by decide) <| .nil (by decide)

/-! ## Too many live orders at a time -/

/-- The largest order there is. -/
def whale (id : UInt64) : Op := .addOrder id Side.Bid 4294967295 10

/-- Every order is deleted before the next one comes. -/
def oneByOne (ids : List UInt64) : List Op := ids.flatMap fun id => [whale id, .deleteOrder id]

/-- All orders are there before the first one is deleted. -/
def addsFirst (ids : List UInt64) : List Op := ids.map whale ++ ids.map .deleteOrder

theorem whale_deleted (id : UInt64) : ∃ b : Book, step empty (whale id) = .ok b ∧
    size b.ordersMap < 2 ^ 32 ∧ (Op.deleteOrder id).Valid b.ordersMap ∧
    step b (.deleteOrder id) = .ok empty := by
  have hadd : (whale id).Valid (empty : Book).ordersMap :=
    ⟨⟨by decide, Finmap.notMem_empty⟩, trivial⟩
  obtain ⟨change, b, happly, haggr⟩ := apply_valid empty_aggregates hadd
  have hstep : step empty (whale id) = .ok b := by rw [step, happly]; rfl
  have hmap : b.ordersMap = (∅ : Orders).emplace id ⟨4294967295, 10, Side.Bid⟩ :=
    (step_effect hstep).symm
  have hsize : size b.ordersMap < 2 ^ 32 := by
    rw [hmap]
    exact lt_of_le_of_lt Orders.size_emplace_le (by decide)
  have hlive : (Op.deleteOrder id).Valid b.ordersMap := by
    refine ⟨trivial, ?_⟩
    rw [hmap]
    exact Finmap.mem_of_lookup_eq_some (Orders.lookup_emplace Finmap.notMem_empty)
  obtain ⟨change', b', happly', htallies⟩ :=
    apply_tallies (haggr hsize).tallies (liveQty_lt hsize.le) hlive
  have hstep' : step b (.deleteOrder id) = .ok b' := by rw [step, happly']; rfl
  have hempty : b' = empty := by
    refine tallies_unique htallies empty_tallies ?_
    rw [← step_effect hstep', hmap]
    apply Finmap.ext_lookup
    intro x
    rw [Op.effect]
    by_cases hx : x = id
    · subst hx
      rw [Finmap.lookup_erase]
      rfl
    · rw [Finmap.lookup_erase_ne hx, Orders.lookup_emplace_ne hx]
      rfl
  exact ⟨b, hstep, hsize, hlive, hempty ▸ hstep'⟩

theorem oneByOne_valid (ids : List UInt64) : ValidRun (oneByOne ids) empty := by
  induction ids with
  | nil => exact ⟨rfl, .nil, .nil (by decide)⟩
  | cons id ids ih =>
    obtain ⟨b, hadd, hsize, hlive, hdel⟩ := whale_deleted id
    refine ⟨run_cons_ok.mpr ⟨b, hadd, run_cons_ok.mpr ⟨empty, hdel, ih.run⟩⟩, ?_, ?_⟩
    · exact .cons hadd ⟨⟨by decide, Finmap.notMem_empty⟩, trivial⟩ (.cons hdel hlive ih.valid)
    · exact .cons hadd (by decide) (.cons hdel hsize ih.few)

theorem filter_uses_of_notMem {f : UInt64 → Op} (hf : ∀ x, (f x).ids = [x]) {ids : List UInt64}
    {id : UInt64} (h : id ∉ ids) : (ids.map f).filter (Op.uses id) = [] := by
  rw [List.filter_eq_nil_iff]
  intro op hop
  obtain ⟨x, hx, rfl⟩ := List.mem_map.mp hop
  have hne : id ≠ x := fun e => h (e ▸ hx)
  simp [Op.uses, hf, hne]

theorem oneByOne_addsFirst {ids : List UInt64} (hn : ids.Nodup) (id : UInt64) :
    (oneByOne ids).filter (Op.uses id) = (addsFirst ids).filter (Op.uses id) := by
  induction ids with
  | nil => rfl
  | cons x ids ih =>
    obtain ⟨hx, hn⟩ := List.nodup_cons.mp hn
    have ih := ih hn
    rw [oneByOne, List.flatMap_cons, ← oneByOne, List.filter_append, ih]
    rw [addsFirst, addsFirst, List.map_cons, List.map_cons, List.filter_append, List.filter_append]
    by_cases h : id = x
    · subst h
      have hadds := filter_uses_of_notMem (f := whale) (fun _ => rfl) hx
      have hdels := filter_uses_of_notMem (f := .deleteOrder) (fun _ => rfl) hx
      have ha : Op.uses id (whale id) = true := decide_eq_true List.mem_cons_self
      have hd : Op.uses id (.deleteOrder id) = true := decide_eq_true List.mem_cons_self
      rw [List.filter_cons_of_pos ha, List.filter_cons_of_pos ha, List.filter_cons_of_pos hd,
        List.filter_cons_of_pos hd, hadds, hdels]
      rfl
    · have ha : ¬ Op.uses id (whale x) = true := by simpa [Op.uses, whale, Op.ids] using h
      have hd : ¬ Op.uses id (.deleteOrder x) = true := by simpa [Op.uses, Op.ids] using h
      rw [List.filter_cons_of_neg ha, List.filter_cons_of_neg ha, List.filter_cons_of_neg hd,
        List.filter_cons_of_neg hd]
      rfl

theorem addsFirst_level (ids : List UInt64) :
    ∃ b : Book, run step empty (ids.map whale) = .ok b ∧ b.WellFormed ∧
      ((b.view Side.Bid 10).getD 0).toNat = ids.length * 4294967295 % 2 ^ 64 ∧
      ∀ id, b.ordersMap.lookup id =
        if id ∈ ids then some ⟨4294967295, 10, Side.Bid⟩ else none := by
  induction ids using List.reverseRecOn with
  | nil => exact ⟨empty, rfl, empty_wellFormed, rfl, fun _ => rfl⟩
  | append_singleton ids x ih =>
    obtain ⟨b, hrun, hwf, hlevel, hlive⟩ := ih
    have hwf₀ : WellFormed { b with ordersMap := b.ordersMap.emplace x ⟨4294967295, 10, Side.Bid⟩ } :=
      ⟨hwf.bid, hwf.ask⟩
    obtain ⟨change, b', hadd, hwf', hview, -⟩ := addLevel_spec hwf₀ Side.Bid ⟨4294967295, 10⟩
    have hstep : step b (whale x) = .ok b' := by
      show (b.addOrder x Side.Bid 4294967295 10 >>= fun r => .ok r.2) = .ok b'
      rw [addOrder]
      exact congrArg (fun r => r >>= fun r => Except.ok r.2) hadd
    refine ⟨b', ?_, hwf', ?_, ?_⟩
    · rw [List.map_append]
      exact (run_concat hrun _).trans hstep
    · have hv : b'.view Side.Bid 10 = some ((b.view Side.Bid 10).getD 0 + 4294967295) := by
        rw [hview, if_pos rfl, LevelMap.add, Function.update_self]
        rfl
      have hc : (4294967295 : UInt64).toNat = 4294967295 := rfl
      rw [hv, Option.getD_some, UInt64.toNat_add, hlevel, hc, Nat.mod_add_mod, List.length_append,
        List.length_singleton, Nat.add_mul, Nat.one_mul]
    · intro id
      rw [addLevel_orders hadd]
      dsimp only
      by_cases hidx : id = x
      · subst hidx
        rw [if_pos (List.mem_append_right ids (List.mem_singleton_self id))]
        by_cases hmem : id ∈ ids
        · have hfind := hlive id
          rw [if_pos hmem] at hfind
          rw [Orders.emplace, if_pos (Finmap.mem_of_lookup_eq_some hfind), hfind]
        · have hfind := hlive id
          rw [if_neg hmem] at hfind
          exact Orders.lookup_emplace (Finmap.lookup_eq_none.mp hfind)
      · have hmem : id ∈ ids ++ [x] ↔ id ∈ ids := by simp [hidx]
        rw [Orders.lookup_emplace_ne hidx, hlive id]
        simp only [hmem]

/-- The sum over `2 ^ 32 + 2` of them is `2 ^ 64` and a little less than one order. -/
theorem addsFirst_wraps {ids : List UInt64} (hlen : ids.length = 2 ^ 32 + 2) :
    ∃ b : Book, run step empty (ids.map whale) = .ok b ∧
      (∀ id ∈ ids, b.ordersMap.lookup id = some ⟨4294967295, 10, Side.Bid⟩) ∧
      b.removeLevel Side.Bid ⟨4294967295, 10⟩ = .error (.unexpected "Remove underflow") := by
  obtain ⟨b, hrun, hwf, hlevel, hlive⟩ := addsFirst_level ids
  refine ⟨b, hrun, fun id hid => by rw [hlive, if_pos hid], ?_⟩
  rw [hlen] at hlevel
  cases hv : b.view Side.Bid 10 with
  | none =>
    rw [hv] at hlevel
    simp at hlevel
  | some q =>
    rw [hv, Option.getD_some] at hlevel
    have hlt : q < 4294967295 := by
      rw [UInt64.lt_iff_toNat_lt, hlevel]
      decide
    have hrem : LevelMap.remove (b.view Side.Bid) ⟨4294967295, 10⟩ =
        .error (.unexpected "Remove underflow") := by
      simp only [LevelMap.remove, hv, hlt, if_true]
    rcases removeLevel_spec hwf Side.Bid ⟨4294967295, 10⟩ with ⟨fault, hm, hl⟩ | ⟨_, _, m, -, -, hm, -⟩
    · rw [hrem] at hm
      cases hm
      exact hl
    · rw [hrem] at hm
      cases hm

theorem addsFirst_aborts {ids : List UInt64} (hlen : ids.length = 2 ^ 32 + 2) :
    run step (empty : Book) (addsFirst ids) = .error (.unexpected "Remove underflow") := by
  obtain ⟨b, hrun, hlive, hrem⟩ := addsFirst_wraps hlen
  cases ids with
  | nil => simp at hlen
  | cons id ids =>
    have hfail : step b (.deleteOrder id) = .error (.unexpected "Remove underflow") := by
      show (b.deleteOrder id >>= fun r => .ok r.2) = _
      rw [deleteOrder_eq (hlive id List.mem_cons_self)]
      exact congrArg (fun r => (r >>= _) >>= _) hrem
    exact run_error_of hrun hfail

theorem exists_many_ids : ∃ ids : List UInt64, ids.Nodup ∧ ids.length = 2 ^ 32 + 2 := by
  refine ⟨(List.range (2 ^ 32 + 2)).map UInt64.ofNat, ?_, by rw [List.length_map, List.length_range]⟩
  refine List.Nodup.map_on ?_ List.nodup_range
  intro i hi j hj hij
  rw [List.mem_range] at hi hj
  have hi : i < 2 ^ 64 := by omega
  have hj : j < 2 ^ 64 := by omega
  have hnat := congrArg UInt64.toNat hij
  rwa [UInt64.toNat_ofNat_of_lt' hi, UInt64.toNat_ofNat_of_lt' hj] at hnat

/-- Each order deleted before the next one comes, and all orders added before the first one goes. -/
theorem adds_first_abort : ∃ ops ops' b, ValidRun ops b ∧
    (∀ id, ops.filter (Op.uses id) = ops'.filter (Op.uses id)) ∧
    run step (empty : Book) ops' = .error (.unexpected "Remove underflow") := by
  obtain ⟨ids, hn, hlen⟩ := exists_many_ids
  exact ⟨_, _, _, oneByOne_valid _, oneByOne_addsFirst hn, addsFirst_aborts hlen⟩

end OrderBook

end ItchIngestion.OB
