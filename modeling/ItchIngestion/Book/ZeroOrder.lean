import ItchIngestion.Book.Shadow
import ItchIngestion.Book.Undo

/-! # Orders of zero shares

Nothing between the wire and the book keeps an order of zero shares out, and `add` makes a level of
zero for it where there is none. The book with the order is a shadow of the book without it
(`Carries`). It shows the same best levels as long as the ghost is hidden, and the deletion finds a
level unless the one at the price was taken down to nothing in the meantime
(`zero_order_inert_iff`).
-/
namespace ItchIngestion.OB
open Library
set_option autoImplicit false

namespace OrderBook

/-! ## The order of zero shares -/

/-- `e` is a shadow of `b` with the order in its map. -/
structure Carries (id : UInt64) (side : Side) (price : UInt32) (ghost : Prop) (b e : Book) : Prop where
  shadow : Shadow side price ghost b e
  orders : e.ordersMap = b.ordersMap.insert id ⟨0, price, side⟩

section Carries
variable {id : UInt64} {side : Side} {price : UInt32} {ghost : Prop} {b b' e : Book} {op : Op}

theorem Carries.step (h : Carries id side price ghost b e) (hb : id ∉ b.ordersMap)
    (hb' : id ∉ b'.ordersMap) (hstep : b.step op = .ok b') :
    ∃ e', e.step op = .ok e' ∧ Carries id side price (ghost ∧ b'.view side price = none) b' e' := by
  obtain ⟨c, happly⟩ := step_ok hstep
  have hids := (apply_orders happly).notMem_ids hb hb'
  have hsame : ∀ y ∈ op.ids, e.ordersMap.lookup y = b.ordersMap.lookup y := by
    intro y hy
    rw [h.orders]
    refine Finmap.lookup_insert_of_ne _ ?_
    rintro rfl
    exact hids hy
  obtain ⟨c', e', happly', h'⟩ := h.shadow.apply hsame happly
  have hstep' : e.step op = .ok e' := by
    rw [OrderBook.step, happly']
    rfl
  refine ⟨e', hstep', h', ?_⟩
  rw [← step_effect hstep', h.orders, effect_insert hids, step_effect hstep]

theorem carries_add (hwf : b.WellFormed) (hb : id ∉ b.ordersMap) (side : Side) (price : UInt32) :
    ∃ e, b.step (.addOrder id side 0 price) = .ok e ∧
      Carries id side price (b.view side price = none) b e := by
  have hwf' : WellFormed { b with ordersMap := b.ordersMap.emplace id ⟨0, price, side⟩ } :=
    ⟨hwf.bid, hwf.ask⟩
  obtain ⟨c, e, hadd, hwfe, -⟩ := addLevel_spec hwf' side ⟨(0 : UInt32).toUInt64, price⟩
  have hview : ∀ S q, e.view S q = if S.book = side.book ∧ q = price then
      some ((b.view S q).getD 0 + 0) else b.view S q := addLevel_view hwf' hadd
  have hat : e.view side price = some ((b.view side price).getD 0) := by
    rw [hview, if_pos ⟨rfl, rfl⟩, UInt64.add_zero]
  refine ⟨e, ?_, ⟨hwf, hwfe, fun S q hne => ?_, fun hnone => ⟨hnone, ?_⟩, fun hne => ?_⟩, ?_⟩
  · rw [OrderBook.step]
    show (b.addOrder id side 0 price >>= _) = _
    rw [addOrder, hadd]
    rfl
  · rw [hview, if_neg hne]
  · rw [hat, hnone]
    rfl
  · obtain ⟨q, hq⟩ := Option.ne_none_iff_exists'.mp hne
    rw [hat, hq]
    rfl
  · rw [addLevel_orders hadd]
    exact if_neg hb

theorem Carries.lookup (h : Carries id side price ghost b e) :
    e.ordersMap.lookup id = some ⟨0, price, side⟩ := by
  rw [h.orders, Finmap.lookup_insert]

/-- With a level to find, the deletion goes through. It takes the level with it where that is a zero,
and so leaves the base for the shadow. -/
theorem Carries.delete_ok (h : Carries id side price ghost b e) (hb : id ∉ b.ordersMap)
    (hlevel : ghost ∨ b.view side price ≠ none) :
    ∃ e', e.step (.deleteOrder id) = .ok e' ∧ e'.ordersMap = b.ordersMap ∧
      Shadow side price (b.view side price = some 0) e' b := by
  have hsub : ∀ x : UInt64, x - (0 : UInt32).toUInt64 = x := UInt64.sub_zero
  obtain ⟨x, hx, hleft⟩ : ∃ x, e.view side price = some x ∧
      (b.view side price = some x ∨ x = 0 ∧ b.view side price = none) := by
    by_cases hg : ghost
    · obtain ⟨hnone, hghost⟩ := h.shadow.there hg
      exact ⟨0, hghost, Or.inr ⟨rfl, hnone⟩⟩
    · obtain ⟨q, hq⟩ := Option.ne_none_iff_exists'.mp (hlevel.resolve_left hg)
      exact ⟨q, (h.shadow.same hg).trans hq, Or.inl hq⟩
  have hwf := h.shadow.extended
  obtain ⟨⟨c, e₁⟩, hrem⟩ := (@removeLevel_returns_iff e side ⟨(0 : UInt32).toUInt64, price⟩ hwf).mpr
    ⟨x, hx, UInt64.le_iff_toNat_le.mpr (Nat.zero_le _)⟩
  obtain ⟨y, hy, -, hview⟩ := removeLevel_view hwf hrem
  have hwf₁ := (removeLevel_ok hwf hrem).1
  cases hx.symm.trans hy
  have hat : e₁.view side price = if x = 0 then none else some x := by
    rw [hview, if_pos ⟨rfl, rfl⟩, hsub]
  have heq := deleteOrder_eq h.lookup
  rw [hrem, ok_bind] at heq
  refine ⟨{ e₁ with ordersMap := e.ordersMap.erase id }, ?_, ?_, ⟨hwf₁.bid, hwf₁.ask⟩, h.shadow.base,
    fun S q hne => ?_, fun hzero => ?_, fun hzero => ?_⟩
  · rw [OrderBook.step]
    show (e.deleteOrder id >>= _) = _
    rw [heq]
    rfl
  · show e.ordersMap.erase id = b.ordersMap
    have herase := erase_emplace hb ⟨0, price, side⟩
    rw [Orders.emplace, if_neg hb] at herase
    rw [h.orders, herase]
  · show b.view S q = e₁.view S q
    rw [hview, if_neg hne, h.shadow.elsewhere S q hne]
  · refine ⟨?_, hzero⟩
    show e₁.view side price = none
    rcases hleft with hq | ⟨hx₀, -⟩
    · rw [hzero] at hq
      rw [hat, if_pos (Option.some.inj hq).symm]
    · rw [hat, if_pos hx₀]
  · show b.view side price = e₁.view side price
    rcases hleft with hq | ⟨hx₀, hnone⟩
    · have hx₀ : x ≠ 0 := by
        rintro rfl
        exact hzero hq
      rw [hat, if_neg hx₀, hq]
    · rw [hat, if_pos hx₀, hnone]

theorem Carries.delete_aborts (h : Carries id side price ghost b e) (hg : ¬ ghost)
    (hnone : b.view side price = none) (e' : Book) : e.step (.deleteOrder id) ≠ .ok e' := by
  intro hstep
  obtain ⟨c, hdel⟩ := step_ok hstep
  obtain ⟨order, e₁, hfind, hrem, -⟩ := deleteOrder_ok hdel
  rw [h.lookup] at hfind
  cases hfind
  obtain ⟨x, hx, -⟩ := removeLevel_view h.shadow.extended hrem
  have hx' : e.view side price = some x := hx
  rw [h.shadow.same hg, hnone] at hx'
  cases hx'

end Carries

/-! ## Runs -/

/-- The level at the price reads `v`, at `t` and ever since. -/
def Stays (side : Side) (price : UInt32) (v : Option UInt64) (t : Book) (ops : List Op) : Prop :=
  Throughout step (fun b => b.view side price = v) t ops

theorem stays_nil {side : Side} {price : UInt32} {v : Option UInt64} {t : Book} :
    Stays side price v t [] ↔ t.view side price = v := Throughout.nil_iff

section Runs
variable {id : UInt64} {side : Side} {price : UInt32} {t u b e : Book} {mid post ops : List Op}

/-- While the order is live, there is a ghost as long as there was no level at its price. -/
theorem run_carries (ht : t.WellFormed) (hid : Throughout step (fun b => id ∉ b.ordersMap) t ops)
    (hrun : run step t ops = .ok b) :
    ∃ e, run step t (.addOrder id side 0 price :: ops) = .ok e ∧
      Carries id side price (Stays side price none t ops) b e := by
  induction ops using List.reverseRecOn generalizing b with
  | nil =>
    cases hrun
    obtain ⟨e, hstep, he⟩ := carries_add ht (hid.last (run_nil t)) side price
    refine ⟨e, run_cons_ok.mpr ⟨e, hstep, rfl⟩, ?_, he.orders⟩
    exact he.shadow.congr stays_nil.symm
  | append_singleton ops op ih =>
    obtain ⟨u, hu, hop⟩ := run_concat_ok hrun
    obtain ⟨e, he, hc⟩ := ih hid.left hu
    obtain ⟨e', hop', hc'⟩ := hc.step (hid.left.last hu) (hid.last hrun) hop
    refine ⟨e', ?_, hc'.shadow.congr (Throughout.concat_iff hrun).symm, hc'.orders⟩
    rw [← List.cons_append]
    exact (run_concat he op).trans hop'

/-- `e` lacks a level of zero that `b` has. -/
structure Lacks (side : Side) (price : UInt32) (ghost : Prop) (b e : Book) : Prop where
  shadow : Shadow side price ghost e b
  orders : e.ordersMap = b.ordersMap
  congruent : b.Congruent

theorem Lacks.step {ghost : Prop} {b' : Book} {op : Op} (h : Lacks side price ghost b e)
    (hvalid : op.Valid b.ordersMap) (hstep : b.step op = .ok b') :
    ((∃ e', e.step op = .ok e') ↔ (ghost → b'.view side price ≠ none)) ∧
      ∀ e', e.step op = .ok e' → Lacks side price (ghost ∧ b'.view side price = some 0) b' e' := by
  obtain ⟨c, happly⟩ := step_ok hstep
  have hforward : ∀ e', e.step op = .ok e' →
      Shadow side price (ghost ∧ e'.view side price = none) e' b' ∧ e'.ordersMap = b'.ordersMap := by
    intro e' hstep'
    obtain ⟨c', happly'⟩ := step_ok hstep'
    obtain ⟨c'', b'', happly'', hs⟩ := h.shadow.apply (fun y _ => by rw [h.orders]) happly'
    rw [happly] at happly''
    cases happly''
    refine ⟨hs, ?_⟩
    rw [← step_effect hstep', h.orders, step_effect hstep]
  refine ⟨⟨?_, fun hstay => ?_⟩, fun e' hstep' => ?_⟩
  · rintro ⟨e', hstep'⟩ hg hnone
    have hs := (hforward e' hstep').1
    by_cases hghost : e'.view side price = none
    · rw [(hs.there ⟨hg, hghost⟩).2] at hnone
      cases hnone
    · exact hghost ((hs.same fun h => hghost h.2).symm.trans hnone)
  · obtain ⟨c', e', happly'⟩ := h.shadow.apply_base h.congruent.positive h.orders happly hstay
    exact ⟨e', by rw [OrderBook.step, happly']; rfl⟩
  · obtain ⟨hs, horders⟩ := hforward e' hstep'
    obtain ⟨c', happly'⟩ := step_ok hstep'
    refine ⟨hs.congr (and_congr_right fun hg => ⟨fun hnone => (hs.there ⟨hg, hnone⟩).2, fun hzero => ?_⟩),
      horders, apply_congruent h.congruent hvalid.1 happly⟩
    by_contra hne
    refine apply_view_ne_zero h.shadow.base (h.orders ▸ hvalid.1) happly' (h.shadow.there hg).1 ?_
    exact (hs.same fun h => hne h.2).symm.trans hzero

theorem run_lacks (h : Lacks side price (u.view side price = some 0) u e)
    (hvalid : Along step (fun b op => op.Valid b.ordersMap) u ops) (hrun : run step u ops = .ok b) :
    ((∃ e', run step e ops = .ok e') ↔ ∀ pre op v, pre ++ [op] <+: ops →
        run step u (pre ++ [op]) = .ok v → Stays side price (some 0) u pre → v.view side price ≠ none) ∧
      ∀ e', run step e ops = .ok e' → Lacks side price (Stays side price (some 0) u ops) b e' := by
  refine run_follows (fun ops b e => Lacks side price (Stays side price (some 0) u ops) b e)
    (fun pre _ v => Stays side price (some 0) u pre → v.view side price ≠ none) ?_ ?_ hvalid hrun
  · intro pre op v v' w hv hw hop hstep
    obtain ⟨hiff, hnext⟩ := hw.step hop hstep
    refine ⟨hiff, fun w' hw' => ?_⟩
    obtain ⟨hs, horders, hcong⟩ := hnext w' hw'
    exact ⟨hs.congr (Throughout.concat_iff ((run_concat hv op).trans hstep)).symm, horders, hcong⟩
  · exact ⟨h.shadow.congr stays_nil.symm, h.orders, h.congruent⟩

theorem SameBest.symm (h : SameBest b e) : SameBest e b := ⟨h.1.symm, h.2.symm⟩

theorem sameBest_live (ht : t.WellFormed) (hid : Throughout step (fun b => id ∉ b.ordersMap) t mid) :
    (∀ mid₁ b e, mid₁ <+: mid → run step t mid₁ = .ok b →
        run step t (.addOrder id side 0 price :: mid₁) = .ok e → SameBest b e) ↔
      ∀ mid₁ b, mid₁ <+: mid → run step t mid₁ = .ok b → Stays side price none t mid₁ →
        b.Hides side price := by
  constructor
  · rintro h mid₁ b ⟨mid₂, rfl⟩ hb hstays
    obtain ⟨e, he, hc⟩ := run_carries ht hid.left hb
    exact hc.shadow.sameBest_iff.mp (h mid₁ b e (List.prefix_append _ _) hb he) hstays
  · rintro h mid₁ b e ⟨mid₂, rfl⟩ hb he
    obtain ⟨e', he', hc⟩ := run_carries ht hid.left hb
    rw [he] at he'
    cases he'
    exact hc.shadow.sameBest_iff.mpr (h mid₁ b (List.prefix_append _ _) hb)

theorem sameBest_gone (h : Lacks side price (u.view side price = some 0) u e)
    (hvalid : Along step (fun b op => op.Valid b.ordersMap) u post)
    (hret : ∃ e', run step e post = .ok e') :
    (∀ post₁ b e', post₁ <+: post → run step u post₁ = .ok b → run step e post₁ = .ok e' →
        SameBest b e') ↔
      ∀ post₁ b, post₁ <+: post → run step u post₁ = .ok b → Stays side price (some 0) u post₁ →
        b.Hides side price := by
  obtain ⟨e', hret⟩ := hret
  constructor
  · rintro hsame post₁ b ⟨post₂, rfl⟩ hb hstays
    obtain ⟨e₁, he₁, -⟩ := run_append_ok.mp hret
    have hs := ((run_lacks h hvalid.left hb).2 e₁ he₁).shadow
    refine hs.hides_iff.mpr (hs.sameBest_iff.mp ?_ hstays)
    exact (hsame post₁ b e₁ (List.prefix_append _ _) hb he₁).symm
  · rintro hhides post₁ b e₁ ⟨post₂, rfl⟩ hb he₁
    have hs := ((run_lacks h hvalid.left hb).2 e₁ he₁).shadow
    refine (hs.sameBest_iff.mpr fun hstays => hs.hides_iff.mp ?_).symm
    exact hhides post₁ b (List.prefix_append _ _) hb hstays

end Runs

/-! ## What a zero order may do -/

/-- The run from `t` on, with the order in it: it returns and the best levels are always those of the
run without. -/
structure Inert (t : Book) (mid post : List Op) (id : UInt64) (side : Side) (price : UInt32) :
    Prop where
  returns : ∃ e, run step t (.addOrder id side 0 price :: (mid ++ .deleteOrder id :: post)) = .ok e
  live : ∀ mid₁ b e, mid₁ <+: mid → run step t mid₁ = .ok b →
    run step t (.addOrder id side 0 price :: mid₁) = .ok e → SameBest b e
  gone : ∀ post₁ b e, post₁ <+: post → run step t (mid ++ post₁) = .ok b →
    run step t (.addOrder id side 0 price :: (mid ++ .deleteOrder id :: post₁)) = .ok e →
    SameBest b e

/-- The run without the order leaves room for it. The last two conditions are about a level whose sum
has wrapped to zero: it goes away with the order. -/
structure Harmless (t : Book) (mid post : List Op) (side : Side) (price : UInt32) : Prop where
  hidden : ∀ mid₁ b, mid₁ <+: mid → run step t mid₁ = .ok b → Stays side price none t mid₁ →
    b.Hides side price
  found : ∀ u, run step t mid = .ok u → Stays side price none t mid ∨ u.view side price ≠ none
  unmissed : ∀ u, run step t mid = .ok u → ∀ post₁ b, post₁ <+: post → run step u post₁ = .ok b →
    Stays side price (some 0) u post₁ → b.Hides side price
  untouched : ∀ u, run step t mid = .ok u → ∀ post₁ op b, post₁ ++ [op] <+: post →
    run step u (post₁ ++ [op]) = .ok b → Stays side price (some 0) u post₁ →
    b.view side price ≠ none

/-- **An order of zero shares is inert exactly where nobody can see it or miss its level.** -/
theorem zero_order_inert_iff {pre mid post : List Op} {t b : Book}
    (h : UnboundedRun (pre ++ (mid ++ post)) b) (hpre : run step empty pre = .ok t) {id : UInt64}
    (hid : Throughout step (fun b => id ∉ b.ordersMap) t mid) (side : Side) (price : UInt32) :
    Inert t mid post id side price ↔ Harmless t mid post side price := by
  have ht : t.Congruent := UnboundedRun.congruent ⟨hpre, h.valid.left⟩
  obtain ⟨t', ht', hrun⟩ := run_append_ok.mp h.run
  cases hpre.symm.trans ht'
  obtain ⟨u, hmid, hpost⟩ := run_append_ok.mp hrun
  have hu : u.Congruent := by
    refine @UnboundedRun.congruent (pre ++ mid) u ⟨run_append_ok.mpr ⟨t, hpre, hmid⟩, ?_⟩
    have hvalid := h.valid
    rw [← List.append_assoc] at hvalid
    exact hvalid.left
  have hvalid : Along step (fun b op => op.Valid b.ordersMap) u post := (h.valid.right hpre).right hmid
  obtain ⟨e, he, hc⟩ := run_carries ht.wf hid hmid
  have hgo : ∀ rest, run step t (.addOrder id side 0 price :: (mid ++ rest)) = run step e rest :=
    run_append_of_ok he
  have hlive := @sameBest_live id side price t mid ht.wf hid
  constructor
  · intro hinert
    obtain ⟨e', hret⟩ := hinert.returns
    rw [hgo] at hret
    obtain ⟨e₁, hdel, hret⟩ := run_cons_ok.mp hret
    have hfound : Stays side price none t mid ∨ u.view side price ≠ none := by
      by_contra hne
      rw [not_or, not_not] at hne
      exact hc.delete_aborts hne.1 hne.2 e₁ hdel
    obtain ⟨e₂, hdel', horders, hs⟩ := hc.delete_ok (hid.last hmid) hfound
    cases hdel.symm.trans hdel'
    have hlacks : Lacks side price (u.view side price = some 0) u e₁ := ⟨hs, horders, hu⟩
    refine ⟨hlive.mp hinert.live, fun v hv => ?_, fun v hv => ?_, fun v hv => ?_⟩
    · cases hmid.symm.trans hv
      exact hfound
    · cases hmid.symm.trans hv
      refine (sameBest_gone hlacks hvalid ⟨e', hret⟩).mp fun post₁ b e hp hb he => ?_
      refine hinert.gone post₁ b e hp ((run_append_of_ok hmid post₁).trans hb) ?_
      rw [hgo]
      exact run_cons_ok.mpr ⟨e₁, hdel, he⟩
    · cases hmid.symm.trans hv
      exact (run_lacks hlacks hvalid hpost).1.mp ⟨e', hret⟩
  · intro hharmless
    obtain ⟨e₁, hdel, horders, hs⟩ := hc.delete_ok (hid.last hmid) (hharmless.found u hmid)
    have hlacks : Lacks side price (u.view side price = some 0) u e₁ := ⟨hs, horders, hu⟩
    have hret := (run_lacks hlacks hvalid hpost).1.mpr (hharmless.untouched u hmid)
    refine ⟨?_, hlive.mpr hharmless.hidden, fun post₁ b e' hp hb he' => ?_⟩
    · obtain ⟨e', he'⟩ := hret
      exact ⟨e', by rw [hgo]; exact run_cons_ok.mpr ⟨e₁, hdel, he'⟩⟩
    · rw [run_append_of_ok hmid] at hb
      rw [hgo] at he'
      obtain ⟨e₂, hdel', he'⟩ := run_cons_ok.mp he'
      cases hdel.symm.trans hdel'
      exact (sameBest_gone hlacks hvalid hret).mpr (hharmless.unmissed u hmid) post₁ b e' hp hb he'

/-- Behind a better level nobody sees it. -/
theorem zero_order_inert_sample : ∃ t : Book, run step empty [.addOrder 1 Side.Bid 5 11] = .ok t ∧
    Inert t [.cancelOrder 1 2] [] 2 Side.Bid 10 := by
  obtain ⟨t, u, ht, hu, hvalid, hbest, hbest', hnone, hnone', hid, hid'⟩ : ∃ t u : Book,
      run step empty [.addOrder 1 Side.Bid 5 11] = .ok t ∧ t.step (.cancelOrder 1 2) = .ok u ∧
      UnboundedRun [.addOrder 1 Side.Bid 5 11, .cancelOrder 1 2] u ∧
      t.view Side.Bid 11 = some 5 ∧ u.view Side.Bid 11 = some 3 ∧
      t.view Side.Bid 10 = none ∧ u.view Side.Bid 10 = none ∧ 2 ∉ t.ordersMap ∧ 2 ∉ u.ordersMap := by
    refine ⟨_, _, rfl, rfl, ⟨rfl, ?_⟩, rfl, rfl, rfl, rfl, by decide, by decide⟩
    exact .cons rfl ⟨⟨by decide, by decide⟩, trivial⟩ <|
      .cons rfl ⟨trivial, ⟨5, 11, Side.Bid⟩, rfl, by decide⟩ .nil
  have hmid : run step t [.cancelOrder 1 2] = .ok u := (run_singleton t _).trans hu
  refine ⟨t, ht, (zero_order_inert_iff hvalid ht ?_ Side.Bid 10).mpr ⟨?_, ?_, ?_, ?_⟩⟩
  · exact .cons hu hid (.nil hid')
  · intro mid₁ b hpre hb _
    rcases List.prefix_cons_iff.mp hpre with rfl | ⟨rest, rfl, hrest⟩
    · cases hb
      exact Or.inl ⟨11, by rw [hbest]; rfl, by decide⟩
    · obtain rfl := List.prefix_nil.mp hrest
      cases hmid.symm.trans hb
      exact Or.inl ⟨11, by rw [hbest']; rfl, by decide⟩
  · intro v hv
    exact Or.inl (.cons hu hnone (.nil hnone'))
  · intro v hv post₁ b hpost hb hstays
    cases hmid.symm.trans hv
    obtain rfl := List.prefix_nil.mp hpost
    cases hnone'.symm.trans (stays_nil.mp hstays)
  · intro v hv post₁ op b hpost
    simp at hpost

/-- In an empty book it is the best level, and a deletion at its price takes its level away. -/
theorem zero_order_seen : ¬ ∀ (pre mid post : List Op) (t b : Book),
    UnboundedRun (pre ++ (mid ++ post)) b → run step empty pre = .ok t → ∀ id : UInt64,
    Throughout step (fun b => id ∉ b.ordersMap) t mid → ∀ (side : Side) (price : UInt32),
    Inert t mid post id side price := by
  intro hall
  have hinert := hall [] [] [] empty empty ⟨rfl, Along.nil⟩ rfl 1 (Throughout.nil (by decide)) Side.Bid 10
  have hsame := hinert.live [] empty _ List.prefix_rfl rfl rfl
  have hbest : (Except.ok ⟨0, 10⟩ : Except Fault Level) = .ok ⟨0, 0⟩ := hsame.1
  cases hbest

example : ∃ fault, run step (empty : Book) [.addOrder 1 Side.Bid 5 10, .addOrder 2 Side.Bid 0 10,
    .deleteOrder 1, .deleteOrder 2] = .error fault := ⟨_, rfl⟩

end OrderBook
end ItchIngestion.OB
