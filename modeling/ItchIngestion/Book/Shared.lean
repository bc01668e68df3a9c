import Mathlib

/-! # The types shared by the order book and its level stores (`order_book_shared.hpp`)

An operation of the program either returns or stops for good: `UNEXPECTED` ends in `std::abort`, which
some functions call on their own, and an access outside a vector or through a null pointer has no defined
meaning. `Fault` names the three, and a fallible operation is a value of `Except Fault`.
-/
namespace ItchIngestion.OB
set_option autoImplicit false

/-- `enum class Side : char`: three named values, but any byte can be cast to it. -/
structure Side where
  raw : UInt8
deriving DecidableEq

namespace Side

def None : Side := ⟨0⟩
def Bid : Side := ⟨'B'.toUInt8⟩
def Ask : Side := ⟨'S'.toUInt8⟩

@[simp] theorem bid_ne_ask : Bid ≠ Ask := by decide
@[simp] theorem ask_ne_bid : Ask ≠ Bid := by decide
@[simp] theorem bid_ne_none : Bid ≠ None := by decide
@[simp] theorem ask_ne_none : Ask ≠ None := by decide

theorem ne_none {S : Side} (hS : S = Bid ∨ S = Ask) : S ≠ None := by
  cases hS with
  | inl h => exact h ▸ bid_ne_none
  | inr h => exact h ▸ ask_ne_none

end Side

/-- The total quantity at one price. -/
structure Level where
  qty : UInt64
  price : UInt32
deriving DecidableEq

/-- What the book keeps of an order. -/
structure Order where
  qty : UInt32
  price : UInt32
  side : Side
deriving DecidableEq

/-- A change of the best level of `side`; `Side.None` stands for "no change". -/
structure BestLvlChange where
  qty : UInt64
  price : UInt32
  side : Side
deriving DecidableEq

/-- The value-initialised `BestLvlChange{}`. -/
def BestLvlChange.none : BestLvlChange := ⟨0, 0, Side.None⟩

/-! ## Faults -/

/-- How a call ends that does not return. -/
inductive Fault
  | unexpected (message : String)
  | abort
  | undefinedBehaviour
deriving DecidableEq

def unexpected (condition : Bool) (message : String) : Except Fault Unit :=
  if condition then .error (.unexpected message) else .ok ()

@[simp] theorem ok_bind {ε α β : Type} (a : α) (f : α → Except ε β) : (.ok a >>= f) = f a := rfl

@[simp] theorem error_bind {ε α β : Type} (e : ε) (f : α → Except ε β) :
    (.error e >>= f) = .error e := rfl

theorem bind_eq_ok {ε α β : Type} {x : Except ε α} {f : α → Except ε β} {b : β} :
    x >>= f = .ok b ↔ ∃ a, x = .ok a ∧ f a = .ok b := by
  cases x with
  | error e => simp
  | ok a => simp

theorem bind_eq_error {ε α β : Type} {x : Except ε α} {f : α → Except ε β} {e : ε} :
    x >>= f = .error e ↔ x = .error e ∨ ∃ a, x = .ok a ∧ f a = .error e := by
  cases x with
  | error e' => simp
  | ok a => simp

theorem unexpected_eq_ok {condition : Bool} {message : String} :
    unexpected condition message = .ok () ↔ condition = false := by
  cases condition <;> simp [unexpected]

theorem unexpected_eq_error {condition : Bool} {message : String} {fault : Fault}
    (h : unexpected condition message = .error fault) : fault = .unexpected message := by
  cases condition with
  | false => cases h
  | true => cases h; rfl

@[simp] theorem pure_eq_ok {ε α : Type} (a : α) : (pure a : Except ε α) = .ok a := rfl

@[simp] theorem unexpected_true (message : String) :
    unexpected true message = .error (.unexpected message) := rfl

@[simp] theorem unexpected_false (message : String) : unexpected false message = .ok () := rfl

/-! ## Vector accesses -/

section Vector
variable {α : Type}

/-- `xs[i]` -/
def element (xs : List α) (i : ℕ) : Except Fault α :=
  match xs[i]? with
  | some x => .ok x
  | Option.none => .error .undefinedBehaviour

/-- `xs.back()` -/
def back (xs : List α) : Except Fault α :=
  match xs.getLast? with
  | some x => .ok x
  | Option.none => .error .undefinedBehaviour

/-- `xs.insert(xs.begin() + i, x)` -/
def insertAt (xs : List α) (i : ℕ) (x : α) : Except Fault (List α) :=
  if i ≤ xs.length then .ok (xs.insertIdx i x) else .error .undefinedBehaviour

/-- `xs.erase(xs.begin() + i)` -/
def eraseAt (xs : List α) (i : ℕ) : Except Fault (List α) :=
  if i < xs.length then .ok (xs.eraseIdx i) else .error .undefinedBehaviour

variable {A B : List α} {i : ℕ} (x : α)

theorem element_middle (hi : A.length = i) : element (A ++ x :: B) i = .ok x := by
  subst hi
  simp [element]

theorem back_of_ne_nil (hB : B ≠ []) : back B = .ok (B.getLast hB) := by
  rw [back, List.getLast?_eq_some_getLast hB]

theorem insertAt_middle (hi : A.length = i) : insertAt (A ++ B) i x = .ok (A ++ x :: B) := by
  subst hi
  rw [insertAt, if_pos (by rw [List.length_append]; omega)]
  congr 1
  induction A with
  | nil => rfl
  | cons a A ih => rw [List.cons_append, List.length_cons, List.insertIdx_succ_cons, ih]; rfl

theorem eraseAt_middle (hi : A.length = i) : eraseAt (A ++ x :: B) i = .ok (A ++ B) := by
  subst hi
  rw [eraseAt, if_pos (by rw [List.length_append, List.length_cons]; omega),
    List.eraseIdx_append_of_length_le (le_refl _), Nat.sub_self, List.eraseIdx_cons_zero]

theorem set_middle (y : α) (hi : A.length = i) : (A ++ x :: B).set i y = A ++ y :: B := by
  subst hi
  simp

end Vector

end ItchIngestion.OB
