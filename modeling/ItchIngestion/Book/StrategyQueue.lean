import ItchIngestion.Book.SingleStartOrderBook
import ItchIngestion.Queue.BoundedFIFO

/-! # The book and its strategy

`SingleStartOrderBook` hands the changes of its best levels to a strategy on another thread, through an
`SPSCQueue`. Here the outcomes of `try_push` are no longer a parameter: an operation runs up to its
`try_push`, whose loads and stores interleave with those of the strategy's `try_pop`, and it goes on when
that has returned. `done` are the operations that have returned.

The strategy hears what the other book would have announced, in order; where it finds the queue empty,
it knows the best levels (`strategy_hears`). The only thing that it can do to the engine is to stop it,
by leaving 131071 changes unread (`strategy_too_slow`).
-/
namespace ItchIngestion.OB
open Library
set_option autoImplicit false

/-! ## What the outcome of a push decides -/

namespace SingleStartOrderBook
variable {Levels : Side → Type} [LevelStore Levels]

/-- The message of the abort in each operation. -/
def blocked : Op → String
  | .addOrder .. => "Strategy queue blocked, strategy is too slow (add order)"
  | .cancelOrder .. => "Strategy queue blocked, strategy is too slow (cancel order)"
  | .executeOrder .. => "Strategy queue blocked, strategy is too slow (execute order)"
  | .replaceOrder .. => "Strategy queue blocked, strategy is too slow (replace order)"
  | .deleteOrder .. => "Strategy queue blocked, strategy is too slow (delete order)"

/-- Two outcomes of an operation on a book that has pushed `sent`: where all pushes succeed, and where
`hasRoom` decides. -/
inductive Alike (hasRoom : ℕ → Bool) (message : String) (sent : List BestLvlChange) :
    Except Fault (SingleStartOrderBook Levels) → Except Fault (SingleStartOrderBook Levels) → Prop
  | failed (fault : Fault) : Alike hasRoom message sent (.error fault) (.error fault)
  | quiet {b : SingleStartOrderBook Levels} (h : b.stratQueue = sent) :
      Alike hasRoom message sent (.ok b) (.ok b)
  | pushed {b : SingleStartOrderBook Levels} {change : BestLvlChange}
      (h : b.stratQueue = sent ++ [change]) : Alike hasRoom message sent (.ok b)
        (if hasRoom sent.length then .ok b else .error (.unexpected message))

section Alike
variable {hasRoom : ℕ → Bool} {message : String} {sent : List BestLvlChange}

omit [LevelStore Levels] in
theorem push_alike (b : SingleStartOrderBook Levels) (change : BestLvlChange) :
    Alike hasRoom message b.stratQueue (b.push (fun _ => true) message change)
      (b.push hasRoom message change) := by
  have hpushed := @Alike.pushed Levels hasRoom message b.stratQueue
    { b with stratQueue := b.stratQueue ++ [change] } change rfl
  unfold push
  cases hroom : hasRoom b.stratQueue.length with
  | false =>
    rw [if_neg (by rw [hroom]; exact Bool.false_ne_true)] at hpushed
    exact hpushed
  | true =>
    rw [if_pos hroom] at hpushed
    exact hpushed

omit [LevelStore Levels] in
theorem notify_alike (b : SingleStartOrderBook Levels) (change : BestLvlChange) :
    Alike hasRoom message b.stratQueue (b.notify (fun _ => true) message change)
      (b.notify hasRoom message change) := by
  unfold notify
  split
  · exact push_alike b change
  · exact .quiet rfl

omit [LevelStore Levels] in
theorem notifyEither_alike (b : SingleStartOrderBook Levels) (op1 op2 : BestLvlChange) :
    Alike hasRoom message b.stratQueue (b.notifyEither (fun _ => true) message op1 op2)
      (b.notifyEither hasRoom message op1 op2) := by
  unfold notifyEither
  split
  · exact push_alike b op2
  · split
    · exact push_alike b op1
    · exact .quiet rfl

omit [LevelStore Levels] in
theorem Alike.setOrders {x y : Except Fault (SingleStartOrderBook Levels)}
    (h : Alike hasRoom message sent x y) (f : Orders → Orders) :
    Alike hasRoom message sent (x >>= fun b => .ok { b with ordersMap := f b.ordersMap })
      (y >>= fun b => .ok { b with ordersMap := f b.ordersMap }) := by
  cases h with
  | failed fault => exact .failed fault
  | quiet h => exact .quiet h
  | @pushed b change h =>
    have hpushed := @Alike.pushed Levels hasRoom message sent
      { b with ordersMap := f b.ordersMap } change h
    split at hpushed <;> rename_i hroom
    · rw [if_pos hroom]
      exact hpushed
    · rw [if_neg hroom]
      exact hpushed

theorem reduceOrder_alike (notFound tooMuch : String) (b : SingleStartOrderBook Levels)
    (orderId : UInt64) (qty : UInt32) : Alike hasRoom message b.stratQueue
      (reduceOrder (fun _ => true) notFound tooMuch message b orderId qty)
      (reduceOrder hasRoom notFound tooMuch message b orderId qty) := by
  unfold reduceOrder removeLevel
  cases b.findOrder orderId notFound with
  | error fault => exact .failed fault
  | ok order =>
    simp only [ok_bind]
    cases unexpected (decide (order.qty < qty)) tooMuch with
    | error fault => exact .failed fault
    | ok _ =>
      simp only [ok_bind]
      cases b.toOrderBook.removeLevel order.side ⟨qty.toUInt64, order.price⟩ with
      | error fault => exact .failed fault
      | ok r =>
        simp only [ok_bind, pure_eq_ok]
        exact (notify_alike { b with toOrderBook := r.2 } r.1).setOrders fun m => m.reduce orderId order qty

/-- **A failed push stops an operation and is all that can.** -/
theorem step_alike (hasRoom : ℕ → Bool) (b : SingleStartOrderBook Levels) (op : Op) :
    Alike hasRoom (blocked op) b.stratQueue (b.step (fun _ => true) op) (b.step hasRoom op) := by
  cases op with
  | addOrder orderId side qty price =>
    show Alike hasRoom _ _ (b.addOrder (fun _ => true) orderId side qty price)
      (b.addOrder hasRoom orderId side qty price)
    rw [addOrder, addOrder, addLevel]
    dsimp only
    cases OrderBook.addLevel { b.toOrderBook with ordersMap := _ } side ⟨qty.toUInt64, price⟩ with
    | error fault => exact .failed fault
    | ok r => exact notify_alike (SingleStartOrderBook.mk r.2 b.stratQueue) r.1
  | cancelOrder orderId qty => exact reduceOrder_alike _ _ b orderId qty
  | executeOrder orderId qty => exact reduceOrder_alike _ _ b orderId qty
  | replaceOrder orderId newOrderId qty price =>
    show Alike hasRoom _ _ (b.replaceOrder (fun _ => true) orderId newOrderId qty price)
      (b.replaceOrder hasRoom orderId newOrderId qty price)
    rw [replaceOrder, replaceOrder]
    cases b.findOrder orderId "Replace order did not find an order" with
    | error fault => exact .failed fault
    | ok order =>
      simp only [ok_bind, removeLevel]
      cases OrderBook.removeLevel { b.toOrderBook with ordersMap := _ } order.side
          ⟨order.qty.toUInt64, order.price⟩ with
      | error fault => exact .failed fault
      | ok rem =>
        simp only [ok_bind, pure_eq_ok, addLevel]
        cases rem.2.addLevel order.side ⟨qty.toUInt64, price⟩ with
        | error fault => exact .failed fault
        | ok add =>
          simp only [ok_bind]
          exact (notifyEither_alike (SingleStartOrderBook.mk add.2 b.stratQueue) rem.1 add.1).setOrders
            fun m => m.erase orderId
  | deleteOrder orderId =>
    show Alike hasRoom _ _ (b.deleteOrder (fun _ => true) orderId) (b.deleteOrder hasRoom orderId)
    rw [deleteOrder, deleteOrder]
    cases b.findOrder orderId "Delete order did not find an order" with
    | error fault => exact .failed fault
    | ok order =>
      simp only [ok_bind, removeLevel]
      cases b.toOrderBook.removeLevel order.side ⟨order.qty.toUInt64, order.price⟩ with
      | error fault => exact .failed fault
      | ok r =>
        simp only [ok_bind, pure_eq_ok]
        exact (notify_alike (SingleStartOrderBook.mk r.2 b.stratQueue) r.1).setOrders
          fun m => m.erase orderId

theorem step_sent {b b' : SingleStartOrderBook Levels} {op : Op} (h : b.step (fun _ => true) op = .ok b') :
    b'.stratQueue = b.stratQueue ∨ ∃ change, b'.stratQueue = b.stratQueue ++ [change] := by
  have halike := step_alike (fun _ => true) b op
  rw [h] at halike
  generalize hy : Except.ok b' = y at halike
  cases halike with
  | failed => cases hy
  | quiet hquiet =>
    cases hy
    exact Or.inl hquiet
  | pushed hpushed =>
    cases hy
    exact Or.inr ⟨_, hpushed⟩

end Alike

end SingleStartOrderBook

/-! ## What a listener knows -/

/-- The level in the last change of a side, or the empty level. -/
def lastHeard (changes : List BestLvlChange) (S : Side) : Level :=
  changes.foldl (fun level change => if change.side = S then ⟨change.qty, change.price⟩ else level) ⟨0, 0⟩

theorem lastHeard_heard (changes : List BestLvlChange) (change : BestLvlChange) {S : Side}
    (hS : S = Side.Bid ∨ S = Side.Ask) : lastHeard (OrderBook.heard changes change) S =
      if change.side = S then ⟨change.qty, change.price⟩ else lastHeard changes S := by
  unfold OrderBook.heard
  split
  · rw [lastHeard, List.foldl_append]
    rfl
  · rename_i hnone
    have hne : change.side ≠ S := fun e => hnone (e ▸ Side.ne_none hS)
    rw [if_neg hne]

/-- **The announced changes tell the best levels.** -/
theorem record_lastHeard {ops : List Op} {s : Book × List BestLvlChange}
    (h : run OrderBook.record (OrderBook.empty, []) ops = .ok s) {S : Side}
    (hS : S = Side.Bid ∨ S = Side.Ask) : lastHeard s.2 S = s.1.top S := by
  refine (run_invariant (fun s : Book × List BestLvlChange =>
    s.1.WellFormed ∧ lastHeard s.2 S = s.1.top S) ⟨OrderBook.empty_wellFormed, ?_⟩ ?_ h).2
  · rcases hS with rfl | rfl <;> rfl
  · rintro t op u ⟨hwf, htop⟩ hstep
    obtain ⟨⟨change, b⟩, happly, hstep⟩ := bind_eq_ok.mp hstep
    cases hstep
    obtain ⟨hwf', side, hann⟩ := OrderBook.apply_announces hwf happly
    exact ⟨hwf', by rw [lastHeard_heard _ _ hS, htop, hann.top_eq S hS]⟩

/-! ## The engine thread and the strategy -/

/-- `done`, the operations that have returned, is not read by the machine. -/
structure StratLink where
  book : SingleStartOrderBook VectorLevelBSearchSplit
  queue : SPSC.State BestLvlChange × SPSC.History BestLvlChange
  pushing : Option Op
  done : List Op

/-- The engine begins an operation, or one party takes a step in the queue. -/
inductive StratEvent
  | operate (op : Op)
  | queue (a : SPSC.Action BestLvlChange)

/-- The event cannot be taken now, or the process ends. -/
inductive Halt
  | disabled
  | stopped (fault : Fault)

namespace StratLink
open SingleStartOrderBook
attribute [local irreducible] SPSC.bufferSizeSlots

def init (storage : ℕ → BestLvlChange) : StratLink where
  book := SingleStartOrderBook.empty
  queue := (SPSC.init storage, .init)
  pushing := none
  done := []

/-- An operation up to the call of `try_push`, or all of it where it makes none. -/
def operate (x : StratLink) (op : Op) : Except Halt StratLink :=
  match x.book.step (fun _ => true) op with
  | .error fault => .error (.stopped fault)
  | .ok book =>
    match book.stratQueue[x.book.stratQueue.length]? with
    | none => .ok { x with book, done := x.done ++ [op] }
    | some change =>
      match SPSC.track id x.queue (.tryPush change) with
      | .error _ => .error .disabled
      | .ok queue => .ok { x with queue, pushing := some op }

/-- The rest of an operation, once its `try_push` has returned. -/
def settle (x : StratLink) : Except Halt StratLink :=
  match x.pushing, x.queue.1.producer with
  | some op, .idle (some res) =>
    match x.book.step (fun _ => res) op with
    | .error fault => .error (.stopped fault)
    | .ok book => .ok { x with book, pushing := none, done := x.done ++ [op] }
  | _, _ => .ok x

/-- A step in the queue, and the rest of the operation if its push has returned. -/
def act (x : StratLink) (a : SPSC.Action BestLvlChange) : Except Halt StratLink :=
  match SPSC.track id x.queue a with
  | .error _ => .error .disabled
  | .ok queue => settle { x with queue }

/-- One event of the two threads; an operation begins when the one before has returned. -/
def event (x : StratLink) : StratEvent → Except Halt StratLink
  | .operate op =>
    match x.pushing with
    | none => x.operate op
    | some _ => .error .disabled
  | .queue (.tryPush _) => .error .disabled
  | .queue a => x.act a

/-! ## The invariant -/

/-- The producer is in `try_push(change)`. -/
def Carries (change : BestLvlChange) : SPSC.Producer BestLvlChange → Prop
  | .idle _ => False
  | .loadWriter data => data = change
  | .loadReader data _ => data = change
  | .writeSlot data _ => data = change
  | .storeWriter data _ => data = change

/-- A push is under way exactly if an operation waits for it. -/
def PushOk (x : StratLink) : Prop :=
  match x.pushing with
  | none => ∃ returned, x.queue.1.producer = .idle returned
  | some op => ∃ book change, x.book.step (fun _ => true) op = .ok book ∧
      book.stratQueue = x.book.stratQueue ++ [change] ∧ Carries change x.queue.1.producer

/-- The book is that of the operations that have returned, and the queue has published its changes. -/
structure Inv (x : StratLink) : Prop where
  queue : SPSC.Inv x.queue.1 x.queue.2
  ran : run (step fun _ => true) SingleStartOrderBook.empty x.done = .ok x.book
  values : x.queue.2.values = x.book.stratQueue
  pushOk : x.PushOk

theorem init_inv (storage : ℕ → BestLvlChange) : Inv (init storage) where
  queue := SPSC.init_inv storage
  ran := rfl
  values := rfl
  pushOk := ⟨none, rfl⟩

variable {x x' : StratLink}

/-- The operation that is under way has pushed nothing yet, and its outcome hangs on the push. -/
theorem Inv.pushing (hinv : Inv x) {op : Op} (hop : x.pushing = some op) : ∃ book change,
    x.book.step (fun _ => true) op = .ok book ∧ book.stratQueue = x.book.stratQueue ++ [change] ∧
      x.book.step (fun _ => false) op = .error (.unexpected (blocked op)) ∧
      Carries change x.queue.1.producer := by
  have hpush := hinv.pushOk
  rw [PushOk, hop] at hpush
  obtain ⟨book, change, hstep, hsent, hcarries⟩ := hpush
  refine ⟨book, change, hstep, hsent, ?_, hcarries⟩
  have halike := step_alike (fun _ => false) x.book op
  rw [hstep] at halike
  generalize x.book.step (fun _ => false) op = y at halike
  cases halike with
  | quiet h =>
    rw [h] at hsent
    simp at hsent
  | pushed h => rfl

theorem Inv.calling (hinv : Inv x) (h : ∀ returned, x.queue.1.producer ≠ .idle returned) :
    ∃ op, x.pushing = some op := by
  have hpush := hinv.pushOk
  unfold PushOk at hpush
  split at hpush
  · obtain ⟨returned, hret⟩ := hpush
    exact absurd hret (h returned)
  · exact ⟨_, ‹_›⟩

theorem settle_busy {x : StratLink}
    (h : ∀ op res, x.pushing = some op → x.queue.1.producer ≠ .idle (some res)) : x.settle = .ok x := by
  unfold settle
  split
  · rename_i op res hop hprod
    exact absurd hprod (h op res hop)
  · rfl

/-- Steps of the queue in which the call of `try_push`, if there is one, does not return. -/
theorem Inv.quiet (hinv : Inv x) {s : SPSC.State BestLvlChange} {h : SPSC.History BestLvlChange}
    (hqueue : SPSC.Inv s h) (hvalues : h.values = x.queue.2.values)
    (hidle : ∀ returned, x.queue.1.producer = .idle returned → s.producer = .idle returned)
    (hbusy : ∀ change, Carries change x.queue.1.producer → Carries change s.producer) :
    settle { x with queue := (s, h) } = .ok { x with queue := (s, h) } ∧
      Inv { x with queue := (s, h) } := by
  have hpush : PushOk { x with queue := (s, h) } := by
    have hpush := hinv.pushOk
    unfold PushOk at hpush ⊢
    dsimp only
    split at hpush
    · obtain ⟨returned, hret⟩ := hpush
      exact ⟨returned, hidle returned hret⟩
    · obtain ⟨book, change, hstep, hsent, hcarries⟩ := hpush
      exact ⟨book, change, hstep, hsent, hbusy change hcarries⟩
  refine ⟨settle_busy fun op res hop hprod => ?_, hqueue, hinv.ran, hvalues.trans hinv.values, hpush⟩
  dsimp only at hop hprod
  rw [PushOk] at hpush
  dsimp only at hpush
  rw [hop] at hpush
  obtain ⟨_, _, -, -, hcarries⟩ := hpush
  rw [hprod] at hcarries
  exact hcarries

theorem Inv.pushed (hinv : Inv x) {data : BestLvlChange} {writer : UInt64}
    (hprod : x.queue.1.producer = .storeWriter data writer)
    {s : SPSC.State BestLvlChange} {h : SPSC.History BestLvlChange} (hqueue : SPSC.Inv s h)
    (hvalues : h.values = x.queue.2.values ++ [data]) (hidle : s.producer = .idle (some true)) :
    ∃ x', settle { x with queue := (s, h) } = .ok x' ∧ Inv x' ∧ x'.queue = (s, h) := by
  obtain ⟨op, hop⟩ := hinv.calling (by simp [hprod])
  obtain ⟨book, change, hstep, hsent, -, hcarries⟩ := hinv.pushing hop
  rw [hprod] at hcarries
  obtain rfl : data = change := hcarries
  refine ⟨⟨book, (s, h), none, x.done ++ [op]⟩, ?_, ⟨hqueue, ?_, ?_, ⟨some true, hidle⟩⟩, rfl⟩
  · unfold settle
    dsimp only
    rw [hop, hidle]
    dsimp only
    rw [hstep]
  · exact (run_concat hinv.ran op).trans hstep
  · rw [hvalues, hinv.values, hsent]

/-- The call returns without having published: the operation ends in its abort. -/
theorem Inv.refused (hinv : Inv x) {op : Op} (hop : x.pushing = some op)
    {s : SPSC.State BestLvlChange} {h : SPSC.History BestLvlChange}
    (hidle : s.producer = .idle (some false)) :
    settle { x with queue := (s, h) } = .error (.stopped (.unexpected (blocked op))) := by
  obtain ⟨-, -, -, -, hblocked, -⟩ := hinv.pushing hop
  unfold settle
  dsimp only
  rw [hop, hidle]
  dsimp only
  rw [hblocked]

/-- The load at which a push finds the queue full. -/
structure Full (x : StratLink) (op : Op) : Prop where
  pushing : x.pushing = some op
  loading : ∃ change writer, x.queue.1.producer = .loadReader change writer
  unread : x.queue.2.published.length - x.queue.2.popped.length = SPSC.bufferSizeSlots - 1

theorem Inv.act_cases (hinv : Inv x) {a : SPSC.Action BestLvlChange} {s : SPSC.State BestLvlChange}
    (hstep : SPSC.step id x.queue.1 a = .ok s) (ha : ∀ change, a ≠ .tryPush change) :
    (∃ x', x.act a = .ok x' ∧ Inv x' ∧ x'.queue = (s, SPSC.observe x.queue.1 a x.queue.2)) ∨
      ∃ op, a = .pushLoadReader ∧ x.Full op ∧
        x.act a = .error (.stopped (.unexpected (blocked op))) := by
  have htrack : SPSC.track id x.queue a = .ok (s, SPSC.observe x.queue.1 a x.queue.2) := by
    rw [SPSC.track, hstep]
  have hqueue := hinv.queue.step hstep
  have hact : x.act a = settle { x with queue := (s, SPSC.observe x.queue.1 a x.queue.2) } := by
    rw [act, htrack]
  rw [hact]
  have hquiet : SPSC.History.values (SPSC.observe x.queue.1 a x.queue.2) = x.queue.2.values →
      (∀ returned, x.queue.1.producer = .idle returned → s.producer = .idle returned) →
      (∀ change, Carries change x.queue.1.producer → Carries change s.producer) →
      ∃ x', settle { x with queue := (s, SPSC.observe x.queue.1 a x.queue.2) } = .ok x' ∧ Inv x' ∧
        x'.queue = (s, SPSC.observe x.queue.1 a x.queue.2) := by
    intro hvalues hidle hbusy
    obtain ⟨hsettle, hinv'⟩ := hinv.quiet hqueue hvalues hidle hbusy
    exact ⟨_, hsettle, hinv', rfl⟩
  have hgoing : ∀ {p}, x.queue.1.producer = p → (∀ returned, p ≠ .idle returned) →
      SPSC.History.values (SPSC.observe x.queue.1 a x.queue.2) = x.queue.2.values →
      (∀ change, Carries change p → Carries change s.producer) →
      ∃ x', settle { x with queue := (s, SPSC.observe x.queue.1 a x.queue.2) } = .ok x' ∧ Inv x' ∧
        x'.queue = (s, SPSC.observe x.queue.1 a x.queue.2) := by
    rintro p rfl hbusy hvalues hcarries
    exact hquiet hvalues (fun returned hidle => absurd hidle (hbusy returned)) hcarries
  cases SPSC.step_ok id hstep with
  | tryPush data hp => exact absurd rfl (ha data)
  | pushLoadWriter hp => exact Or.inl (hgoing hp (by simp) rfl fun _ e => e)
  | @pushLoadReader data writer hp =>
    by_cases hfull : SPSC.freeSpace (SPSC.used writer x.queue.1.reader) < 1
    · have hidle : SPSC.checkSpace data writer x.queue.1.reader = .idle (some false) := by
        rw [SPSC.checkSpace, if_pos hfull]
      obtain ⟨op, hop⟩ := hinv.calling (by simp [hp])
      have hunread := (hinv.queue.stepSafe hstep).full rfl hidle
      exact Or.inr ⟨op, rfl, ⟨hop, ⟨data, writer, hp⟩, hunread⟩, hinv.refused hop hidle⟩
    · have hroom : SPSC.checkSpace data writer x.queue.1.reader = .writeSlot data writer := by
        rw [SPSC.checkSpace, if_neg hfull]
      refine Or.inl (hgoing hp (by simp) rfl fun change e => ?_)
      rw [hroom]
      exact e
  | writeSlot hp => exact Or.inl (hgoing hp (by simp) rfl fun _ e => e)
  | storeWriter hp =>
    refine Or.inl (hinv.pushed hp hqueue ?_ rfl)
    simp only [SPSC.observe, hp]
    exact List.map_append
  | tryPop | popLoadReader | popLoadWriter | readSlot =>
    exact Or.inl (hquiet rfl (fun _ e => e) fun _ e => e)
  | storeReader hc =>
    refine Or.inl (hquiet ?_ (fun _ e => e) fun _ e => e)
    simp only [SPSC.observe, hc]
    rfl

theorem Inv.blocked (hinv : Inv x) {op : Op} (hfull : x.Full op) :
    x.act .pushLoadReader = .error (.stopped (.unexpected (blocked op))) := by
  obtain ⟨hop, ⟨change, writer, hload⟩, hunread⟩ := hfull
  have hprod := hinv.queue.producer
  rw [SPSC.ProducerOk, hload] at hprod
  obtain ⟨rfl, -⟩ := hprod
  have hle := hinv.queue.popped_le
  have hspace := (SPSC.noSpace_iff hinv.queue.writer hinv.queue.reader hle hinv.queue.room).mpr (by omega)
  have hidle : SPSC.checkSpace change x.queue.1.writer x.queue.1.reader = .idle (some false) := by
    rw [SPSC.checkSpace, if_pos hspace]
  have hstep : SPSC.step id x.queue.1 .pushLoadReader =
      .ok { x.queue.1 with producer := .idle (some false) } := by
    simp only [SPSC.step, hload, hidle]
  rw [act, SPSC.track, hstep]
  exact hinv.refused hop rfl

theorem Inv.operate (hinv : Inv x) {op : Op} (hidle : x.pushing = none) (hop : x.operate op = .ok x') :
    Inv x' := by
  have hpush := hinv.pushOk
  rw [PushOk, hidle] at hpush
  unfold StratLink.operate at hop
  split at hop
  · cases hop
  · rename_i book hstep
    have hsent := step_sent hstep
    split at hop
    · rename_i hnone
      cases hop
      refine ⟨hinv.queue, (run_concat hinv.ran op).trans hstep, ?_, ?_⟩
      · rcases hsent with hquiet | ⟨change, hpushed⟩
        · exact hinv.values.trans hquiet.symm
        · rw [hpushed, List.getElem?_concat_length] at hnone
          cases hnone
      · rw [PushOk]
        dsimp only
        rw [hidle]
        exact hpush
    · rename_i change hsome
      split at hop
      · cases hop
      · rename_i queue htrack
        cases hop
        obtain ⟨s, h⟩ := queue
        obtain ⟨hqstep, rfl⟩ := SPSC.track_ok htrack
        refine ⟨hinv.queue.step hqstep, hinv.ran, hinv.values, book, change, hstep, ?_, ?_⟩
        · rcases hsent with hquiet | ⟨change', hpushed⟩
          · rw [hquiet, List.getElem?_eq_none (Nat.le_refl _)] at hsome
            cases hsome
          · rw [hpushed, List.getElem?_concat_length] at hsome
            rw [hpushed, Option.some.inj hsome]
        · cases SPSC.step_ok id hqstep with
          | tryPush => exact rfl

/-- The strategy and the pending push take the actions of the queue; only an operation calls `try_push`. -/
theorem event_queue {a : SPSC.Action BestLvlChange} {r : Except Halt StratLink} (hr : r ≠ .error .disabled)
    (he : x.event (.queue a) = r) : x.act a = r ∧ ∀ change, a ≠ .tryPush change := by
  cases a with
  | tryPush change => exact absurd he.symm hr
  | _ => exact ⟨he, fun change e => by cases e⟩

theorem act_step {a : SPSC.Action BestLvlChange} {r : Except Halt StratLink} (hr : r ≠ .error .disabled)
    (hact : x.act a = r) : ∃ s, SPSC.step id x.queue.1 a = .ok s := by
  cases hstep : SPSC.step id x.queue.1 a with
  | ok s => exact ⟨s, rfl⟩
  | error e =>
    rw [act, SPSC.track, hstep] at hact
    exact absurd hact.symm hr

theorem Inv.event (hinv : Inv x) {e : StratEvent} (he : x.event e = .ok x') : Inv x' := by
  cases e with
  | operate op =>
    unfold StratLink.event at he
    dsimp only at he
    split at he
    · rename_i hidle
      exact hinv.operate hidle he
    · cases he
  | queue a =>
    obtain ⟨hact, hne⟩ := event_queue (by simp) he
    obtain ⟨s, hstep⟩ := act_step (by simp) hact
    rcases hinv.act_cases hstep hne with ⟨x'', hact', hinv', -⟩ | ⟨op, -, -, hblocked⟩
    · rw [hact] at hact'
      cases hact'
      exact hinv'
    · rw [hact] at hblocked
      cases hblocked

/-! ## Runs -/

theorem run_inv {storage : ℕ → BestLvlChange} {es : List StratEvent} {x : StratLink}
    (hrun : run event (init storage) es = .ok x) : Inv x :=
  run_invariant Inv (init_inv storage) (fun _ _ _ hinv he => hinv.event he) hrun

/-- **What the strategy hears.** Under every interleaving of the engine thread with the strategy, the book
after the operations that have returned is the one that the other book has after them, the changes that
the strategy has popped are the first ones that the other book announces, and where a pop finds the queue
empty they are all of them, and the last ones name the best levels. -/
theorem strategy_hears {storage : ℕ → BestLvlChange} {es : List StratEvent} {x : StratLink}
    (hrun : run event (init storage) es = .ok x)
    (hlong : Along OrderBook.record (fun s op => ¬ ReplacesItself s.1 op)
      ((OrderBook.empty : Book), []) x.done) : ∃ changes,
    run OrderBook.record ((OrderBook.empty : Book), []) x.done = .ok (x.book.toOrderBook, changes) ∧
    x.queue.2.popped <+: changes ∧
    ∀ x', event x (.queue .popLoadWriter) = .ok x' → x'.queue.1.consumer = .idle (some false) →
      x'.queue.2.popped = changes ∧
      x.book.toOrderBook.bestBid = .ok (lastHeard changes Side.Bid, x.book.toOrderBook) ∧
      x.book.toOrderBook.bestAsk = .ok (lastHeard changes Side.Ask, x.book.toOrderBook) := by
  have hinv := run_inv hrun
  rcases agree_of_along (fun _ => rfl) hlong with ⟨_, _, s, hb, hs, rfl, rfl⟩ | ⟨_, _, -, hs⟩
  · rw [hinv.ran] at hs
    cases hs
    refine ⟨_, hb, hinv.values ▸ hinv.queue.popped, fun x' he hempty => ?_⟩
    obtain ⟨hact, hne⟩ := event_queue (by simp) he
    obtain ⟨t, hstep⟩ := act_step (by simp) hact
    have hx' : x'.queue = (t, SPSC.observe x.queue.1 .popLoadWriter x.queue.2) := by
      rcases hinv.act_cases hstep hne with ⟨x'', hact', -, hqueue⟩ | ⟨_, hload, -⟩
      · rw [hact] at hact'
        cases hact'
        exact hqueue
      · cases hload
    rw [hx'] at hempty ⊢
    have hall := (hinv.queue.stepSafe hstep).drained rfl hempty
    have hbest := OrderBook.best_eq_top (record_wellFormed hb)
    rw [record_lastHeard hb (Or.inl rfl), record_lastHeard hb (Or.inr rfl)]
    exact ⟨hall.trans hinv.values, hbest⟩
  · rw [hinv.ran] at hs
    cases hs

/-- **How a strategy stops the engine.** From any state that is reached, an event stops the engine exactly
if it is an operation that the book refuses by itself, or the load of `reader_` in a push that the strategy
has left 131071 unread changes. -/
theorem strategy_too_slow {storage : ℕ → BestLvlChange} {es : List StratEvent} {x : StratLink}
    (hrun : run event (init storage) es = .ok x) (e : StratEvent) (fault : Fault) :
    event x e = .error (.stopped fault) ↔
      (∃ op, e = .operate op ∧ x.pushing = none ∧ x.book.step (fun _ => true) op = .error fault) ∨
      ∃ op, e = .queue .pushLoadReader ∧ x.Full op ∧ fault = .unexpected (blocked op) := by
  have hinv := run_inv hrun
  constructor
  · intro he
    cases e with
    | operate op =>
      refine Or.inl ⟨op, rfl, ?_⟩
      unfold event at he
      dsimp only at he
      split at he
      · rename_i hidle
        unfold StratLink.operate at he
        split at he
        · rename_i hstep
          cases he
          exact ⟨hidle, hstep⟩
        · split at he
          · cases he
          · split at he <;> cases he
      · cases he
    | queue a =>
      obtain ⟨hact, hne⟩ := event_queue (by simp) he
      obtain ⟨s, hstep⟩ := act_step (by simp) hact
      rcases hinv.act_cases hstep hne with ⟨x', hact', -⟩ | ⟨op, rfl, hfull, hblocked⟩
      · rw [hact] at hact'
        cases hact'
      · rw [hact] at hblocked
        cases hblocked
        exact Or.inr ⟨op, rfl, hfull, rfl⟩
  · rintro (⟨op, rfl, hidle, hstep⟩ | ⟨op, rfl, hfull, rfl⟩)
    · unfold event
      dsimp only
      rw [hidle]
      dsimp only
      rw [StratLink.operate, hstep]
    · exact hinv.blocked hfull

/-! ## A strategy that pops nothing -/

/-- An operation up to the load of `reader_` in its push. -/
def calls (op : Op) : List StratEvent := [.operate op, .queue .pushLoadWriter]

/-- The rest of a push that finds room. -/
def returns : List StratEvent := [.queue .pushLoadReader, .queue .writeSlot, .queue .storeWriter]

/-- The push of `change` has loaded `writer_`. -/
def loading (x : StratLink) (op : Op) (change : BestLvlChange) : StratLink :=
  { x with
    queue := ({ x.queue.1 with producer := .loadReader change x.queue.1.writer },
      { x.queue.2 with pushTouched := false })
    pushing := some op }

section Unread
variable {op : Op} {book : SingleStartOrderBook VectorLevelBSearchSplit} {change : BestLvlChange}
  (hinv : Inv x) (hidle : x.pushing = none) (hstep : x.book.step (fun _ => true) op = .ok book)
  (hsent : book.stratQueue = x.book.stratQueue ++ [change])
include hinv hidle hstep hsent

theorem run_calls : run event x (calls op) = .ok (x.loading op change) := by
  have hpush := hinv.pushOk
  rw [PushOk, hidle] at hpush
  obtain ⟨returned, hproducer⟩ := hpush
  have htry : SPSC.track id x.queue (.tryPush change) =
      .ok ({ x.queue.1 with producer := .loadWriter change }, { x.queue.2 with pushTouched := false }) := by
    simp only [SPSC.track, SPSC.step, hproducer, SPSC.observe]
  have hoperate : event x (.operate op) = .ok { x with
      queue := ({ x.queue.1 with producer := .loadWriter change }, { x.queue.2 with pushTouched := false })
      pushing := some op } := by
    simp only [event, hidle, operate, hstep, hsent, List.getElem?_concat_length, htry]
  exact run_cons_ok.mpr ⟨_, hoperate, run_cons_ok.mpr ⟨_, rfl, run_nil _⟩⟩

theorem run_publishes
    (hroom : x.queue.2.published.length < x.queue.2.popped.length + (SPSC.bufferSizeSlots - 1)) :
    ∃ x', run event x (calls op ++ returns) = .ok x' ∧ x'.book = book ∧ x'.pushing = none ∧
      x'.queue.2.popped = x.queue.2.popped ∧
      x'.queue.2.published.length = x.queue.2.published.length + 1 := by
  have hspace : SPSC.checkSpace change x.queue.1.writer x.queue.1.reader =
      .writeSlot change x.queue.1.writer := by
    rw [SPSC.checkSpace, if_neg]
    intro hfull
    have hpublished := (SPSC.noSpace_iff hinv.queue.writer hinv.queue.reader hinv.queue.popped_le
      hinv.queue.room).mp hfull
    omega
  have hload : event (x.loading op change) (.queue .pushLoadReader) = .ok { x with
      queue := ({ x.queue.1 with producer := .writeSlot change x.queue.1.writer },
        { x.queue.2 with pushTouched := false })
      pushing := some op } := by
    simp only [event, loading, act, SPSC.track, SPSC.step, SPSC.observe, hspace, settle]
  have hstore : ∀ y : StratLink, y.book = x.book → y.pushing = some op →
      y.queue.1.producer = .storeWriter change x.queue.1.writer →
      event y (.queue .storeWriter) = .ok { y with
        book
        queue := ({ y.queue.1 with writer := x.queue.1.writer + 1, producer := .idle (some true) },
          { y.queue.2 with
            published := y.queue.2.published ++ [⟨SPSC.slotIndex x.queue.1.writer, change⟩]
            pushTouched := true })
        pushing := none
        done := y.done ++ [op] } := by
    intro y hbook hop hproducer
    simp only [event, act, SPSC.track, SPSC.step, SPSC.observe, hproducer, settle, hop, hbook, hstep]
  refine ⟨_, run_append_ok.mpr ⟨_, run_calls hinv hidle hstep hsent, run_cons_ok.mpr ⟨_, hload,
    run_cons_ok.mpr ⟨_, rfl, run_cons_ok.mpr ⟨_, hstore _ rfl rfl rfl, run_nil _⟩⟩⟩⟩,
    rfl, rfl, rfl, List.length_append⟩

end Unread

end StratLink

/-- A bid, heard by a strategy that then finds the queue empty. -/
theorem StratLink.strategy_hears_sample : ∃ (x x' : StratLink),
    StratLink.event x (.queue .popLoadWriter) = .ok x' ∧ x'.queue.2.popped = [⟨5, 10, Side.Bid⟩] ∧
    x.book.toOrderBook.bestBid = .ok (⟨5, 10⟩, x.book.toOrderBook) := by
  obtain ⟨x, x', hrun, hdone, he, hempty, hpopped⟩ : ∃ x x',
      run StratLink.event (StratLink.init fun _ => .none) [.operate (.addOrder 1 Side.Bid 5 10),
        .queue .pushLoadWriter, .queue .tryPop, .queue .pushLoadReader, .queue .writeSlot,
        .queue .popLoadReader, .queue .storeWriter, .queue .popLoadWriter, .queue .readSlot,
        .queue .storeReader, .queue .tryPop, .queue .popLoadReader] = .ok x ∧
      x.done = [.addOrder 1 Side.Bid 5 10] ∧ StratLink.event x (.queue .popLoadWriter) = .ok x' ∧
      x'.queue.1.consumer = .idle (some false) ∧ x'.queue.2.popped = [⟨5, 10, Side.Bid⟩] :=
    ⟨_, _, rfl, rfl, rfl, rfl, rfl⟩
  obtain ⟨changes, -, -, hall⟩ := StratLink.strategy_hears hrun (by
    rw [hdone]
    exact .cons rfl (fun h => h) .nil)
  obtain ⟨hheard, hbid, -⟩ := hall x' he hempty
  rw [hpopped] at hheard
  rw [← hheard] at hbid
  exact ⟨x, x', he, hpopped, hbid⟩

/-- The book between the placement of a bid and its deletion. -/
def restingBid : OrderBook VectorLevelBSearchSplit where
  ordersMap := Orders.emplace ∅ 1 ⟨5, 10, Side.Bid⟩
  bidLevels := ⟨[10], [5]⟩
  askLevels := LevelStore.init

namespace StratLink
attribute [local irreducible] SPSC.bufferSizeSlots

/-- After `n` placements and deletions of one bid, with nothing popped. -/
structure Unread (x : StratLink) (n : ℕ) : Prop where
  inv : Inv x
  pushing : x.pushing = none
  popped : x.queue.2.popped = []
  published : x.queue.2.published.length = n
  book : x.book.toOrderBook = if n % 2 = 0 then OrderBook.empty else restingBid

/-- The operation number `n` of the engine. -/
def turn (n : ℕ) : Op := if n % 2 = 0 then .addOrder 1 Side.Bid 5 10 else .deleteOrder 1

theorem turn_step (n : ℕ) (sent : List BestLvlChange) : ∃ book change,
    SingleStartOrderBook.step (fun _ => true)
      ⟨if n % 2 = 0 then OrderBook.empty else restingBid, sent⟩ (turn n) = .ok book ∧
      book.stratQueue = sent ++ [change] ∧
      book.toOrderBook = if (n + 1) % 2 = 0 then OrderBook.empty else restingBid := by
  rcases Nat.mod_two_eq_zero_or_one n with hn | hn
  · have hnext : (n + 1) % 2 ≠ 0 := by omega
    rw [turn, if_pos hn, if_pos hn, if_neg hnext]
    exact ⟨⟨restingBid, sent ++ [⟨5, 10, Side.Bid⟩]⟩, _, rfl, rfl, rfl⟩
  · have hodd : n % 2 ≠ 0 := by omega
    have hnext : (n + 1) % 2 = 0 := by omega
    rw [turn, if_neg hodd, if_neg hodd, if_pos hnext]
    have hfind : restingBid.findOrder 1 "Delete order did not find an order" =
        .ok ⟨5, 10, Side.Bid⟩ := rfl
    refine ⟨⟨OrderBook.empty, sent ++ [⟨0, 0, Side.Bid⟩]⟩, _, ?_, rfl, rfl⟩
    unfold SingleStartOrderBook.step SingleStartOrderBook.deleteOrder
    simp only [hfind, ok_bind, SingleStartOrderBook.removeLevel]
    rfl

theorem Unread.step {x : StratLink} {n : ℕ} (h : x.Unread n) : ∃ book change,
    x.book.step (fun _ => true) (turn n) = .ok book ∧ book.stratQueue = x.book.stratQueue ++ [change] ∧
      book.toOrderBook = if (n + 1) % 2 = 0 then OrderBook.empty else restingBid := by
  have hturn := turn_step n x.book.stratQueue
  rw [← h.book] at hturn
  exact hturn

theorem unread_reached (n : ℕ) (hn : n ≤ SPSC.bufferSizeSlots - 1) :
    ∃ es x, run event (init fun _ => .none) es = .ok x ∧ x.Unread n := by
  induction n with
  | zero => exact ⟨[], init fun _ => .none, rfl, ⟨init_inv _, rfl, rfl, rfl, rfl⟩⟩
  | succ n ih =>
    obtain ⟨es, x, hrun, h⟩ := ih (Nat.le_of_succ_le hn)
    obtain ⟨book, change, hstep, hsent, hbook⟩ := h.step
    obtain ⟨x', hrun', rfl, hidle, hpopped, hlength⟩ := run_publishes h.inv h.pushing hstep hsent (by
      rw [h.published, h.popped, List.length_nil, Nat.zero_add]
      exact hn)
    have hreached := run_append_ok.mpr ⟨x, hrun, hrun'⟩
    exact ⟨_, x', hreached, run_inv hreached, hidle, hpopped.trans h.popped,
      hlength.trans (congrArg (· + 1) h.published), hbook⟩

/-- 131071 changes are unread, and the bid is deleted. -/
theorem strategy_too_slow_sample : ∃ es x, run event (init fun _ => .none) es = .ok x ∧
    x.queue.2.popped = [] ∧ x.queue.2.published.length = 131071 ∧ event x (.queue .pushLoadReader) =
      .error (.stopped (.unexpected "Strategy queue blocked, strategy is too slow (delete order)")) := by
  obtain ⟨es, x, hrun, h⟩ := unread_reached (SPSC.bufferSizeSlots - 1) (Nat.le_refl _)
  obtain ⟨book, change, hstep, hsent, -⟩ := h.step
  have hreached := run_append_ok.mpr ⟨x, hrun, run_calls h.inv h.pushing hstep hsent⟩
  refine ⟨_, _, hreached, h.popped, h.published.trans (by rw [SPSC.bufferSizeSlots_eq]),
    (strategy_too_slow hreached _ _).mpr (Or.inr ⟨_, rfl, ⟨rfl, ⟨change, _, rfl⟩, ?_⟩, ?_⟩)⟩
  · show x.queue.2.published.length - x.queue.2.popped.length = _
    rw [h.published, h.popped, List.length_nil, Nat.sub_zero]
  · rw [turn, SPSC.bufferSizeSlots_eq]
    rfl

end StratLink

end ItchIngestion.OB
