import ItchIngestion.Parser.Framing

/-! # The loop ends

Termination has nothing to do with what the dispatched functions do, as long as each of them returns
or throws. So the loop is run here with any `call` in place of the table: `Iterations` counts the
completed iterations, `Stops` is the last one. No iteration is left without moving the cursor by
`2 + size`, also where `size - 1` is negative, and `end - src < 2 + size` keeps the cursor in the
buffer. `parse_of_stops` ties the relation to `parse`.
-/
namespace ItchIngestion.ITCH
open Library
set_option autoImplicit false

section Relation
variable {σ : Type} (call : UInt8 → ℕ → σ → Outcome σ) (mem : Mem) (e : ℕ)

/-- `n` iterations were completed, and the cursor is back at the head of the loop. -/
inductive Iterations (src₀ : ℕ) (s₀ : σ) : ℕ → ℕ → σ → Prop
  | start : Iterations src₀ s₀ 0 src₀ s₀
  | next {n src : ℕ} {s s' : σ} {size : UInt16} {rawType : UInt8} (hrun : Iterations src₀ s₀ n src s)
      (hframe : header mem e src = .frame size rawType)
      (hcall : call rawType (src + 3) s = .returned s') :
      Iterations src₀ s₀ (n + 1) (src + 3 + size.toNat - 1) s'

/-- The loop is left at this head. -/
inductive Stops (src : ℕ) (s : σ) : Outcome σ → Prop
  | done (hdone : header mem e src = .done) : Stops src s (.returned s)
  | threw {s' : σ} {what : String} {size : UInt16} {rawType : UInt8}
      (hframe : header mem e src = .frame size rawType)
      (hcall : call rawType (src + 3) s = .threw what s') : Stops src s (.threw what s')

end Relation

section Head
variable {mem : Mem} {src₀ len src : ℕ} (hlo : src₀ ≤ src)
include hlo

end Head

/-! ## Runs -/

section Runs
variable {σ : Type} {call : UInt8 → ℕ → σ → Outcome σ} {mem : Mem} {e src₀ src n : ℕ} {s₀ s : σ}

/-- **Each iteration takes at least two bytes.** -/
theorem Iterations.advances (h : Iterations call mem e src₀ s₀ n src s) (hle : src₀ ≤ e) :
    src₀ + 2 * n ≤ src ∧ src ≤ e := by
  induction h with
  | start => exact ⟨by omega, hle⟩
  | next hrun hframe hcall ih =>
    obtain ⟨-, hend⟩ := header_frame_le hframe
    omega

theorem Iterations.trans {m src' : ℕ} {s' : σ} (h : Iterations call mem e src₀ s₀ n src s)
    (h' : Iterations call mem e src s m src' s') : Iterations call mem e src₀ s₀ (n + m) src' s' := by
  induction h' with
  | start => exact h
  | next _ hframe hcall ih => exact .next ih hframe hcall

end Runs

/-! ## `parse` -/

section Parse
variable {σ : Type} (h : SpecificHandler σ) (junk : (ty : MessageType) → ty.Msg) (mem : Mem)

/-- The entry of the table between `handle_before` and `handle_after`. -/
def dispatchHandled (rawType : UInt8) (src : ℕ) (s : σ) : Outcome σ :=
  match dispatch h junk mem rawType src (h.handleBefore s) with
  | .returned s => .returned (h.handleAfter s)
  | stop => stop

variable {h junk mem} {e src₀ src n : ℕ} {s₀ s : σ} {outcome : Outcome σ}

theorem loop_of_iterations
    (hrun : Iterations (dispatchHandled h junk mem) mem e src₀ s₀ n src s) :
    loop h junk mem e src₀ s₀ = loop h junk mem e src s := by
  induction hrun with
  | start => rfl
  | @next n src s s' size rawType _ hframe hcall ih =>
    rw [ih, loop_eq, hframe]
    dsimp only
    unfold dispatchHandled at hcall
    cases hdispatch : dispatch h junk mem rawType (src + 3) (h.handleBefore s) with
    | returned t =>
      rw [hdispatch] at hcall
      cases hcall
      rfl
    | threw what t =>
      rw [hdispatch] at hcall
      cases hcall
    | undefinedBehaviour t =>
      rw [hdispatch] at hcall
      cases hcall

theorem parse_of_stops {len : ℕ}
    (hrun : Iterations (dispatchHandled h junk mem) mem (src₀ + len) src₀ s₀ n src s)
    (hstop : Stops (dispatchHandled h junk mem) mem (src₀ + len) src s outcome) :
    parse h junk mem src₀ len s₀ = outcome := by
  rw [parse, loop_of_iterations hrun, loop_eq]
  cases hstop with
  | done hdone => rw [hdone]
  | @threw s' what size rawType hframe hcall =>
    rw [hframe]
    dsimp only
    unfold dispatchHandled at hcall
    cases hdispatch : dispatch h junk mem rawType (src + 3) (h.handleBefore s) with
    | returned t =>
      rw [hdispatch] at hcall
      cases hcall
    | threw what' t =>
      rw [hdispatch] at hcall
      exact hcall
    | undefinedBehaviour t =>
      rw [hdispatch] at hcall
      cases hcall

end Parse

end ItchIngestion.ITCH
