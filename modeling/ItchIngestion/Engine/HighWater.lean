import ItchIngestion.Engine.Market

/-! # The number that is printed at the end (`max_orders`)

The handler looks at the size of a book behind an addition only. That is enough: no other operation
makes a map of orders larger, a replacement included, so `max_orders` is the largest number of
orders that any book has held (`max_orders_attained`).
-/
namespace ItchIngestion.Engine
open Library ITCH OB
set_option autoImplicit false

/-- **Only an addition makes a map larger.** -/
theorem size_le_of_not_adds {m m' : Orders} {op : Op} (hstep : OrderBook.OrdersStep m op m')
    (hadds : adds op = false) : size m' ≤ size m := by
  cases hstep with
  | addOrder => cases hadds
  | cancelOrder hfind | executeOrder hfind => exact Orders.size_reduce_le hfind _
  | replaceOrder newOrderId qty price hfind => exact Orders.size_emplace_le.trans (size_erase hfind).ge
  | deleteOrder hfind => exact (Nat.le_succ _).trans (size_erase hfind).ge

/-! ## One message -/

/-- No book holds more orders than `max_orders` says. -/
def Handler.Below (h : Handler) : Prop := ∀ book ∈ h.books, size book.ordersMap ≤ h.maxOrders

/-- What one message does to `max_orders`. -/
structure Rises (h h' : Handler) : Prop where
  mono : h.maxOrders ≤ h'.maxOrders
  below : h'.Below
  attained : h'.maxOrders = h.maxOrders ∨ ∃ book ∈ h'.books, size book.ordersMap = h'.maxOrders

section Step
variable {h h' : Handler} (hbelow : h.Below)
include hbelow

theorem Rises.same (hbooks : ∀ book ∈ h'.books, book ∈ h.books ∨ book = OrderBook.empty)
    (hmax : h'.maxOrders = h.maxOrders) : Rises h h' := by
  refine ⟨hmax.ge, fun book hbook => ?_, Or.inl hmax⟩
  rw [hmax]
  rcases hbooks book hbook with hold | rfl
  · exact hbelow book hold
  · exact Nat.zero_le _

theorem Rises.order {L : UInt16} {op : Op} (hrun : h.handleOrder (adds op) L op = .ok h') : Rises h h' := by
  rcases handleOrder_eq_ok.mp hrun with
    ⟨-, rfl⟩ | ⟨i, book, book', change, ps, -, hbook, happly, -, rfl⟩
  · exact Rises.same hbelow (fun book hbook => Or.inl hbook) rfl
  · have hat : i < h.books.length := (List.getElem?_eq_some_iff.mp hbook).1
    have hnew : book' ∈ h.books.set i book' := List.mem_of_getElem? (List.getElem?_set_self hat)
    have hold : size book.ordersMap ≤ h.maxOrders := hbelow book (List.mem_of_getElem? hbook)
    cases hadds : adds op with
    | true =>
      refine ⟨le_max_left _ _, fun other hother => ?_, ?_⟩
      · rcases List.mem_or_eq_of_mem_set hother with hmem | rfl
        · exact (hbelow other hmem).trans (le_max_left _ _)
        · exact le_max_right _ _
      · rcases max_choice h.maxOrders (size book'.ordersMap) with hmax | hmax
        · exact Or.inl hmax
        · exact Or.inr ⟨book', hnew, hmax.symm⟩
    | false =>
      have hle := size_le_of_not_adds (OrderBook.apply_orders happly) hadds
      refine ⟨Nat.le_refl _, fun other hother => ?_, Or.inl rfl⟩
      rcases List.mem_or_eq_of_mem_set hother with hmem | rfl
      · exact hbelow other hmem
      · exact hle.trans hold

theorem Rises.deliver {d : Delivery} (hrun : Engine.deliver h d = .ok h') : Rises h h' := by
  have hrun' : Engine.deliver h ⟨d.tsc, d.ty, d.msg⟩ = .ok h' := hrun
  have hbefore : (h.handleBefore d.tsc).Below := hbelow
  rcases deliver_kinds d.tsc ⟨d.ty, d.msg⟩ with ⟨op, -, heq⟩ | ⟨msg, -, -, -, heq⟩ | ⟨-, -, heq⟩
  · rw [heq] at hrun'
    have hrises := Rises.order hbefore hrun'
    exact ⟨hrises.mono, hrises.below, hrises.attained⟩
  · rw [heq] at hrun'
    rcases handleStockDirectory_eq_ok.mp hrun' with ⟨-, rfl⟩ | ⟨cfg, -, -, rfl⟩
    · exact Rises.same hbelow (fun book hbook => Or.inl hbook) rfl
    · refine Rises.same hbelow (fun book hbook => ?_) rfl
      exact (List.mem_append.mp hbook).imp_right List.mem_singleton.mp
  · obtain ⟨g, hg, hsame, -, hmax⟩ := heq h
    rw [hrun'] at hg
    cases hg
    exact Rises.same hbelow (fun book hbook => Or.inl (hsame.books ▸ hbook)) hmax

end Step

/-! ## Runs -/

/-- **`max_orders` is the largest number of orders that a book has held**, after whatever messages: no
book has held more at any time, and some book has held that many, if it is not zero. -/
theorem max_orders_attained {t0 : UInt64} {instruments : List InstrumentConfig} {ds : List Delivery}
    {h : Handler} (hrun : run deliver (.init t0 instruments) ds = .ok h) :
    (∀ pre g book, pre <+: ds → run deliver (.init t0 instruments) pre = .ok g → book ∈ g.books →
      size book.ordersMap ≤ h.maxOrders) ∧
    (h.maxOrders = 0 ∨ ∃ pre g book, pre <+: ds ∧ run deliver (.init t0 instruments) pre = .ok g ∧
      book ∈ g.books ∧ size book.ordersMap = h.maxOrders) := by
  suffices hall : h.Below ∧ _ from hall.2
  induction ds using List.reverseRecOn generalizing h with
  | nil =>
    cases hrun
    refine ⟨fun book hbook => (by cases hbook), fun pre g book hpre hg hbook => ?_, Or.inl rfl⟩
    rw [List.prefix_nil.mp hpre] at hg
    cases hg
    cases hbook
  | append_singleton ds d ih =>
    obtain ⟨g, hg, hd⟩ := run_concat_ok hrun
    obtain ⟨hbelow, hheld, hwas⟩ := ih hg
    have hrises := Rises.deliver hbelow hd
    refine ⟨hrises.below, fun pre g' book hpre hg' hbook => ?_, ?_⟩
    · rcases List.prefix_concat_iff.mp hpre with rfl | hpre
      · rw [hrun] at hg'
        cases hg'
        exact hrises.below book hbook
      · exact (hheld pre g' book hpre hg' hbook).trans hrises.mono
    · rcases hrises.attained with hsame | ⟨book, hbook, hsize⟩
      · rw [hsame]
        refine hwas.imp_right fun ⟨pre, g', book, hpre, hat⟩ => ?_
        exact ⟨pre, g', book, hpre.trans (List.prefix_append _ _), hat⟩
      · exact Or.inr ⟨ds ++ [d], h, book, List.prefix_rfl, hrun, hbook, hsize⟩

/-- Two orders, one of them gone again. -/
theorem max_orders_attained_sample : ∃ h pre g book,
    run deliver (.init 0 [nvda]) [⟨0, .stockDirectory, nvdaDirectory⟩,
      ⟨0, .addOrderNoMpid, ⟨9, 0, 0, 1, 66, 5, default, 10⟩⟩,
      ⟨0, .addOrderNoMpid, ⟨9, 0, 0, 2, 66, 5, default, 10⟩⟩,
      ⟨0, .orderDelete, ⟨9, 0, 0, 1⟩⟩] = .ok h ∧
    run deliver (.init 0 [nvda]) pre = .ok g ∧ book ∈ g.books ∧ size book.ordersMap = 2 := by
  obtain ⟨h, hrun, hmax⟩ : ∃ h, run deliver (.init 0 [nvda]) [⟨0, .stockDirectory, nvdaDirectory⟩,
      ⟨0, .addOrderNoMpid, ⟨9, 0, 0, 1, 66, 5, default, 10⟩⟩,
      ⟨0, .addOrderNoMpid, ⟨9, 0, 0, 2, 66, 5, default, 10⟩⟩,
      ⟨0, .orderDelete, ⟨9, 0, 0, 1⟩⟩] = .ok h ∧ h.maxOrders = 2 := ⟨_, rfl, rfl⟩
  rcases (max_orders_attained hrun).2 with hzero | ⟨pre, g, book, -, hg, hbook, hsize⟩
  · rw [hmax] at hzero
    cases hzero
  · exact ⟨h, pre, g, book, hrun, hg, hbook, hsize.trans hmax⟩

end ItchIngestion.Engine
