import ItchIngestion.Levels.Balance

/-! # The store on a table of all prices (`array_levels_v2.hpp`)

`book` has one entry for each price below `N`, and `bestIdx` is a cursor into it. An access outside
the table is undefined. `Cursor` is what keeps the cursor right: nothing that is occupied is better
than it, and it stands on an occupied entry or at the end of the table where an empty side leaves it.

The guard of the two operations lets the price `N` pass, which is one more than there are entries.
-/
namespace ItchIngestion.OB
open Library
set_option autoImplicit false

namespace ArrayLevelsV2

/-- The number of entries. -/
def N : ℕ := 2000000

end ArrayLevelsV2

/-- A quantity for every price below `N`, and the index of the best one. -/
structure ArrayLevelsV2 (S : Side) where
  book : Fin ArrayLevelsV2.N → UInt64
  bestIdx : ℕ

namespace ArrayLevelsV2
variable {S : Side}

/-! ## The code -/

/-- `book[i]` -/
def entry (i : ℕ) : Except Fault (Fin N) :=
  if h : i < N then .ok ⟨i, h⟩ else .error .undefinedBehaviour

/-- Where the cursor of an empty side stands. -/
def sentinel (S : Side) : ℕ := if S = Side.Bid then 0 else N - 1

def init : ArrayLevelsV2 S := ⟨fun _ => 0, sentinel S⟩

/-- The better one of the index and a price. -/
def advance (S : Side) (bestIdx price : ℕ) : ℕ :=
  if S = Side.Bid then if price > bestIdx then price else bestIdx
  else if price < bestIdx then price else bestIdx

/-- A price above `N` is ignored; the price `N` has no entry. -/
def add (l : ArrayLevelsV2 S) (level : Level) : Except Fault (ArrayLevelsV2 S) :=
  if level.price.toNat > N then return l
  else do
    let i ← entry level.price.toNat
    return ⟨Function.update l.book i (l.book i + level.qty), advance S l.bestIdx level.price.toNat⟩

/-- `while (best_idx > 0 && book[best_idx] == 0) best_idx--` -/
def scanDown (book : Fin N → UInt64) : ℕ → Except Fault ℕ
  | 0 => .ok 0
  | idx + 1 => do
    let i ← entry (idx + 1)
    if book i == 0 then scanDown book idx else return idx + 1

/-- `while (best_idx < N - 1 && book[best_idx] == 0) best_idx++`, with `N - 1 - best_idx` steps
left. -/
def scanUp (book : Fin N → UInt64) : ℕ → ℕ → Except Fault ℕ
  | 0, idx => .ok idx
  | left + 1, idx => do
    let i ← entry idx
    if book i == 0 then scanUp book left (idx + 1) else return idx

/-- The scan for the next best price, towards the worse end. -/
def scan (S : Side) (book : Fin N → UInt64) (idx : ℕ) : Except Fault ℕ :=
  if S = Side.Bid then scanDown book idx else scanUp book (N - 1 - idx) idx

def remove (l : ArrayLevelsV2 S) (level : Level) : Except Fault (ArrayLevelsV2 S) :=
  if level.price.toNat > N then return l
  else do
    let i ← entry level.price.toNat
    unexpected (decide (level.qty > l.book i)) "Remove underflow"
    let book := Function.update l.book i (l.book i - level.qty)
    if book i == 0 && level.price.toNat == l.bestIdx then return ⟨book, ← scan S book l.bestIdx⟩
    else return ⟨book, l.bestIdx⟩

/-- The entry at the index. -/
def best (l : ArrayLevelsV2 S) : Except Fault Level := do
  let i ← entry l.bestIdx
  return ⟨l.book i, UInt32.ofNat l.bestIdx⟩

def change (l : ArrayLevelsV2 S) : LevelCall → Except Fault (ArrayLevelsV2 S)
  | .add level => l.add level
  | .remove level => l.remove level

def step (l : ArrayLevelsV2 S) : StoreCall → Except Fault (ArrayLevelsV2 S)
  | .change call => l.change call
  | .best => do
    let _ ← l.best
    return l

theorem entry_eq_ok {i : ℕ} (h : i < N) : entry i = .ok ⟨i, h⟩ := dif_pos h

theorem entry_eq_error {i : ℕ} (h : ¬ i < N) : entry i = .error .undefinedBehaviour := dif_neg h

/-! ## The scans -/

theorem scanDown_spec (book : Fin N → UInt64) {idx : ℕ} (h : idx < N) :
    ∃ j, scanDown book idx = .ok j ∧ j ≤ idx ∧
      (∀ k : Fin N, j < k.val → k.val ≤ idx → book k = 0) ∧
      (j = 0 ∨ ∀ k : Fin N, k.val = j → book k ≠ 0) := by
  induction idx with
  | zero => exact ⟨0, rfl, le_refl 0, fun k hj hk => by omega, Or.inl rfl⟩
  | succ idx ih =>
    rw [scanDown, entry_eq_ok h, ok_bind]
    by_cases hz : book ⟨idx + 1, h⟩ = 0
    · obtain ⟨j, hj, hle, hzero, hstop⟩ := ih (by omega)
      refine ⟨j, ?_, by omega, fun k hjk hk => ?_, hstop⟩
      · rw [if_pos (by simpa using hz), hj]
      · rcases Nat.lt_or_eq_of_le hk with hlt | heq
        · exact hzero k hjk (by omega)
        · rw [← hz]
          exact congrArg book (Fin.ext heq)
    · refine ⟨idx + 1, ?_, le_refl _, fun k hj hk => by omega, Or.inr fun k hk => ?_⟩
      · rw [if_neg (by simpa using hz)]
        rfl
      · rwa [show k = ⟨idx + 1, h⟩ from Fin.ext hk]

theorem scanUp_spec (book : Fin N → UInt64) {left idx : ℕ} (h : idx + left = N - 1) :
    ∃ j, scanUp book left idx = .ok j ∧ idx ≤ j ∧ j < N ∧
      (∀ k : Fin N, idx ≤ k.val → k.val < j → book k = 0) ∧
      (j = N - 1 ∨ ∀ k : Fin N, k.val = j → book k ≠ 0) := by
  have hN : N = 2000000 := rfl
  induction left generalizing idx with
  | zero =>
    refine ⟨idx, rfl, le_refl idx, by omega, fun k hj hk => by omega, Or.inl (by omega)⟩
  | succ left ih =>
    have hidx : idx < N := by omega
    rw [scanUp, entry_eq_ok hidx, ok_bind]
    by_cases hz : book ⟨idx, hidx⟩ = 0
    · obtain ⟨j, hj, hle, hlt, hzero, hstop⟩ := @ih (idx + 1) (by omega)
      refine ⟨j, ?_, by omega, hlt, fun k hk hkj => ?_, hstop⟩
      · rw [if_pos (by simpa using hz), hj]
      · rcases Nat.lt_or_eq_of_le hk with hk | heq
        · exact hzero k hk hkj
        · rw [← hz]
          exact congrArg book (Fin.ext heq.symm)
    · refine ⟨idx, ?_, le_refl _, hidx, fun k hk hkj => by omega, Or.inr fun k hk => ?_⟩
      · rw [if_neg (by simpa using hz)]
        rfl
      · rwa [show k = ⟨idx, hidx⟩ from Fin.ext hk]

/-- No further in the direction of better prices. -/
def NotBetter (S : Side) (i j : ℕ) : Prop := if S = Side.Bid then i ≤ j else j ≤ i

theorem NotBetter.trans {i j k : ℕ} (h : NotBetter S i j) (h' : NotBetter S j k) :
    NotBetter S i k := by
  unfold NotBetter at *
  split at h <;> simp_all <;> omega

/-- A scan from an entry inside the table stays inside and passes over empty entries only. -/
theorem scan_spec (S : Side) (book : Fin N → UInt64) {idx : ℕ} (h : idx < N) :
    ∃ j, scan S book idx = .ok j ∧ j < N ∧ NotBetter S j idx ∧
      (∀ k : Fin N, NotBetter S k idx → ¬ NotBetter S k j → book k = 0) ∧
      (j = sentinel S ∨ ∀ k : Fin N, k.val = j → book k ≠ 0) := by
  have hN : N = 2000000 := rfl
  unfold scan NotBetter sentinel
  split
  · obtain ⟨j, hj, hle, hzero, hstop⟩ := scanDown_spec book h
    exact ⟨j, hj, by omega, hle, fun k hk hkj => hzero k (by omega) hk, hstop⟩
  · obtain ⟨j, hj, hle, hlt, hzero, hstop⟩ := @scanUp_spec book (N - 1 - idx) idx (by omega)
    exact ⟨j, hj, hlt, hle, fun k hk hkj => hzero k hk (by omega), hstop⟩

/-! ## What the operations do inside the table -/

section Inside
variable {l l' : ArrayLevelsV2 S} {level : Level}

theorem sentinel_lt (S : Side) : sentinel S < N := by
  unfold sentinel
  split <;> decide

theorem advance_lt {idx price : ℕ} (hidx : idx < N) (hprice : price < N) :
    advance S idx price < N := by
  unfold advance
  split <;> split <;> assumption

theorem add_inside (hp : level.price.toNat < N) : l.add level =
    .ok ⟨Function.update l.book ⟨_, hp⟩ (l.book ⟨_, hp⟩ + level.qty),
      advance S l.bestIdx level.price.toNat⟩ := by
  rw [add, if_neg (by omega), entry_eq_ok hp]
  rfl

theorem remove_inside (hin : l.bestIdx < N) (hp : level.price.toNat < N) :
    (l.book ⟨_, hp⟩ < level.qty ∧ l.remove level = .error (.unexpected "Remove underflow")) ∨
      level.qty ≤ l.book ⟨_, hp⟩ ∧ ∃ idx < N, l.remove level =
          .ok ⟨Function.update l.book ⟨_, hp⟩ (l.book ⟨_, hp⟩ - level.qty), idx⟩ ∧
        if l.book ⟨_, hp⟩ - level.qty = 0 ∧ level.price.toNat = l.bestIdx then
          scan S (Function.update l.book ⟨_, hp⟩ (l.book ⟨_, hp⟩ - level.qty)) l.bestIdx = .ok idx
        else idx = l.bestIdx := by
  rw [remove, if_neg (by omega), entry_eq_ok hp, ok_bind]
  by_cases hlt : l.book ⟨_, hp⟩ < level.qty
  · have hc : decide (level.qty > l.book ⟨_, hp⟩) = true := by simpa using hlt
    rw [hc, unexpected_true, error_bind]
    exact Or.inl ⟨hlt, rfl⟩
  · have hc : decide (level.qty > l.book ⟨_, hp⟩) = false := by simpa using hlt
    rw [hc, unexpected_false, ok_bind]
    refine Or.inr ⟨UInt64.not_lt.mp hlt, ?_⟩
    dsimp only
    rw [Function.update_self]
    by_cases hempty : l.book ⟨_, hp⟩ - level.qty = 0 ∧ level.price.toNat = l.bestIdx
    · obtain ⟨j, hj, hjN, -⟩ := scan_spec S
        (Function.update l.book ⟨_, hp⟩ (l.book ⟨_, hp⟩ - level.qty)) hin
      refine ⟨j, hjN, ?_, ?_⟩
      · rw [if_pos (by simpa using hempty), hj]
        rfl
      · rwa [if_pos hempty]
    · refine ⟨l.bestIdx, hin, ?_, ?_⟩
      · rw [if_neg (by simpa using hempty)]
        rfl
      · rw [if_neg hempty]

theorem best_inside (hin : l.bestIdx < N) :
    l.best = .ok ⟨l.book ⟨_, hin⟩, UInt32.ofNat l.bestIdx⟩ := by
  rw [best, entry_eq_ok hin]
  rfl

theorem add_end (hp : level.price.toNat = N) : l.add level = .error .undefinedBehaviour := by
  rw [add, if_neg (by omega), entry_eq_error (by omega)]
  rfl

theorem remove_end (hp : level.price.toNat = N) : l.remove level = .error .undefinedBehaviour := by
  rw [remove, if_neg (by omega), entry_eq_error (by omega)]
  rfl

end Inside

/-! ## Accesses outside the table -/

/-- An addition or a removal at the price one past the last entry. -/
def AtEnd : StoreCall → Prop
  | .change call => call.level.price.toNat = N
  | .best => False

/-- With the cursor inside the table, a call leaves the table exactly at that price. -/
theorem step_inside {l : ArrayLevelsV2 S} (hin : l.bestIdx < N) (call : StoreCall) :
    (AtEnd call ∧ l.step call = .error .undefinedBehaviour) ∨
      ¬ AtEnd call ∧ ((∃ l', l.step call = .ok l' ∧ l'.bestIdx < N) ∨
        ∃ message, l.step call = .error (.unexpected message)) := by
  cases call with
  | best =>
    refine Or.inr ⟨id, Or.inl ⟨l, ?_, hin⟩⟩
    rw [step, best_inside hin]
    rfl
  | change call =>
    rcases Nat.lt_trichotomy call.level.price.toNat N with hp | hp | hp
    · refine Or.inr ⟨Nat.ne_of_lt hp, ?_⟩
      cases call with
      | add level => exact Or.inl ⟨_, add_inside hp, advance_lt hin hp⟩
      | remove level =>
        rcases remove_inside hin hp with ⟨-, h⟩ | ⟨-, idx, hidx, h, -⟩
        · exact Or.inr ⟨_, h⟩
        · exact Or.inl ⟨_, h, hidx⟩
    · refine Or.inl ⟨hp, ?_⟩
      cases call with
      | add level => exact add_end hp
      | remove level => exact remove_end hp
    · refine Or.inr ⟨Nat.ne_of_gt hp, Or.inl ⟨l, ?_, hin⟩⟩
      cases call with
      | add level => exact if_pos hp
      | remove level => exact if_pos hp

theorem inside_run {l : ArrayLevelsV2 S} {calls : List StoreCall} (h : run step init calls = .ok l) :
    l.bestIdx < N := by
  refine run_invariant (fun l : ArrayLevelsV2 S => l.bestIdx < N) (sentinel_lt S) ?_ h
  intro l call l' hin hstep
  rcases step_inside hin call with ⟨-, he⟩ | ⟨-, ⟨l'', hok, hin'⟩ | ⟨message, he⟩⟩
  · rw [hstep] at he
    cases he
  · rw [hstep] at hok
    cases hok
    exact hin'
  · rw [hstep] at he
    cases he

/-- **A run leaves the table exactly when it comes to a call at the price `N`.** -/
theorem leaves_table_iff {calls : List StoreCall} :
    run step (init : ArrayLevelsV2 S) calls = .error .undefinedBehaviour ↔
      ∃ pre call post l, calls = pre ++ call :: post ∧
        run step (init : ArrayLevelsV2 S) pre = .ok l ∧ AtEnd call := by
  constructor
  · intro h
    obtain ⟨pre, call, post, l, rfl, hpre, hcall⟩ := run_error h
    refine ⟨pre, call, post, l, rfl, hpre, ?_⟩
    rcases step_inside (inside_run hpre) call with ⟨hend, -⟩ | ⟨-, ⟨l', hok, -⟩ | ⟨message, he⟩⟩
    · exact hend
    · rw [hok] at hcall
      cases hcall
    · rw [he] at hcall
      cases hcall
  · rintro ⟨pre, call, post, l, rfl, hpre, hend⟩
    rcases step_inside (inside_run hpre) call with ⟨-, he⟩ | ⟨hne, -⟩
    · exact run_error_of hpre he
    · exact absurd hend hne

/-- The guard stops at prices above `N`, and the table ends before it. -/
theorem add_leaves_table : run step (init : ArrayLevelsV2 Side.Bid) [.change (.add ⟨1, 2000000⟩)] =
    .error .undefinedBehaviour := rfl

/-! ## The cursor -/

/-- The index is at the best entry in use, or at the worse end. -/
structure Cursor (l : ArrayLevelsV2 S) : Prop where
  inside : l.bestIdx < N
  best : ∀ k : Fin N, l.book k ≠ 0 → NotBetter S k l.bestIdx
  settled : l.bestIdx = sentinel S ∨ ∀ k : Fin N, k.val = l.bestIdx → l.book k ≠ 0

theorem init_cursor : Cursor (init : ArrayLevelsV2 S) where
  inside := sentinel_lt S
  best _ hk := absurd rfl hk
  settled := Or.inl rfl

theorem notBetter_advance (S : Side) (idx price : ℕ) :
    NotBetter S idx (advance S idx price) ∧ NotBetter S price (advance S idx price) ∧
      (advance S idx price = price ∨ advance S idx price = idx) := by
  unfold NotBetter advance
  split <;> split <;> simp <;> omega

theorem eq_sentinel {k : Fin N} (h : NotBetter S k (sentinel S)) : k.val = sentinel S := by
  have hN : N = 2000000 := rfl
  have hk := k.isLt
  unfold NotBetter sentinel at h
  unfold sentinel
  split at h
  · rw [if_pos ‹_›]
    omega
  · rw [if_neg ‹_›]
    omega

section Step
variable {l l' : ArrayLevelsV2 S} {level : Level}

theorem Cursor.add (h : l.Cursor) (hp : level.price.toNat < N)
    (hqty : l.book ⟨_, hp⟩ + level.qty ≠ 0) (hadd : l.add level = .ok l') : l'.Cursor := by
  rw [add_inside hp] at hadd
  cases hadd
  obtain ⟨hidx, hprice, hor⟩ := notBetter_advance S l.bestIdx level.price.toNat
  refine ⟨advance_lt h.inside hp, fun k hk => ?_, ?_⟩
  · by_cases hkp : k = ⟨_, hp⟩
    · rw [hkp]
      exact hprice
    · dsimp only at hk
      rw [Function.update_of_ne hkp] at hk
      exact (h.best k hk).trans hidx
  · have hnew : ∀ k : Fin N, k.val = level.price.toNat →
        Function.update l.book ⟨_, hp⟩ (l.book ⟨_, hp⟩ + level.qty) k ≠ 0 := by
      intro k hk
      rw [show k = ⟨_, hp⟩ from Fin.ext hk, Function.update_self]
      exact hqty
    dsimp only
    rcases hor with hor | hor
    · rw [hor]
      exact Or.inr hnew
    · rw [hor]
      refine h.settled.imp id fun hold k hk => ?_
      by_cases hkp : k.val = level.price.toNat
      · exact hnew k hkp
      · rw [Function.update_of_ne fun he => hkp (congrArg Fin.val he)]
        exact hold k hk

theorem Cursor.remove (h : l.Cursor) (hp : level.price.toNat < N) (hrem : l.remove level = .ok l') :
    l'.Cursor := by
  rcases remove_inside h.inside hp with ⟨-, he⟩ | ⟨hle, idx, hidx, hok, hscan⟩
  · rw [hrem] at he
    cases he
  rw [hrem] at hok
  cases hok
  have hbest : ∀ k : Fin N, Function.update l.book ⟨_, hp⟩ (l.book ⟨_, hp⟩ - level.qty) k ≠ 0 →
      NotBetter S k l.bestIdx := by
    intro k hk
    by_cases hkp : k = ⟨_, hp⟩
    · subst hkp
      rw [Function.update_self] at hk
      refine h.best _ fun hz => hk ?_
      rw [hz] at hle ⊢
      rw [UInt64.le_zero_iff.mp hle, UInt64.sub_zero]
    · rw [Function.update_of_ne hkp] at hk
      exact h.best k hk
  split at hscan
  · obtain ⟨j, hj, hjN, -, hzero, hstop⟩ := scan_spec S
      (Function.update l.book ⟨_, hp⟩ (l.book ⟨_, hp⟩ - level.qty)) h.inside
    rw [hscan] at hj
    cases hj
    refine ⟨hjN, fun k hk => ?_, hstop⟩
    by_contra hkj
    exact hk (hzero k (hbest k hk) hkj)
  · rename_i hempty
    subst hscan
    refine ⟨h.inside, hbest, h.settled.imp id fun hold k hk => ?_⟩
    dsimp only at hk ⊢
    by_cases hkp : k = ⟨_, hp⟩
    · subst hkp
      rw [Function.update_self]
      exact fun hz => hempty ⟨hz, hk⟩
    · rw [Function.update_of_ne hkp]
      exact hold k hk

end Step

/-! ## Runs below `N` -/

/-- The quantity at every price of the table is the balance of the history. -/
def Shows (l : ArrayLevelsV2 S) (calls : List LevelCall) : Prop :=
  ∀ p : UInt32, ∀ h : p.toNat < N, ((l.book ⟨p.toNat, h⟩).toNat : ℤ) = balance calls p

section Run
variable {l l' : ArrayLevelsV2 S} {level : Level} {calls : List LevelCall}

theorem Shows.update (h : l.Shows calls) (hp : level.price.toNat < N) {call : LevelCall}
    (hcall : call.level = level) {q : UInt64} (hq : (q.toNat : ℤ) =
      (l.book ⟨_, hp⟩).toNat + call.delta level.price) (idx : ℕ) :
    Shows (⟨Function.update l.book ⟨_, hp⟩ q, idx⟩ : ArrayLevelsV2 S) (calls ++ [call]) := by
  intro p hpN
  rw [balance_concat]
  dsimp only
  by_cases he : level.price = p
  · subst he
    rw [← h level.price hp, Function.update_self, hq]
  · have hne : (⟨p.toNat, hpN⟩ : Fin N) ≠ ⟨_, hp⟩ := fun hfin =>
      he (UInt32.toNat_inj.mp (Fin.mk.inj hfin)).symm
    have hzero : call.delta p = 0 := by
      subst hcall
      cases call with
      | add level => exact if_neg he
      | remove level => exact if_neg he
    rw [Function.update_of_ne hne, hzero, add_zero]
    exact h p hpN

theorem Shows.add (h : l.Shows calls) (hfit : Fits (calls ++ [.add level]))
    (hp : level.price.toNat < N) (hadd : l.add level = .ok l') :
    l'.Shows (calls ++ [.add level]) := by
  rw [add_inside hp] at hadd
  cases hadd
  have hlast := hfit.last level.price
  rw [LevelCall.delta_add, if_pos rfl] at hlast
  refine h.update hp rfl ?_ _
  rw [LevelCall.delta_add, if_pos rfl, h level.price hp]
  exact toNat_add_int (h level.price hp) hlast

theorem Shows.remove (h : l.Shows calls) (hin : l.bestIdx < N) (hp : level.price.toNat < N)
    (hrem : l.remove level = .ok l') : l'.Shows (calls ++ [.remove level]) := by
  rcases remove_inside hin hp with ⟨-, he⟩ | ⟨hle, idx, -, hok, -⟩
  · rw [hrem] at he
    cases he
  rw [hrem] at hok
  cases hok
  refine h.update hp rfl ?_ _
  rw [LevelCall.delta_remove, if_pos rfl, ← sub_eq_add_neg]
  exact toNat_sub_int rfl hle

theorem cursor_shows (hprice : ∀ call ∈ calls, call.level.price.toNat < N)
    (hpos : PositiveCalls calls) (hfit : Fits calls) (hrun : run change init calls = .ok l) :
    l.Cursor ∧ l.Shows calls := by
  refine run_prefix_induction (fun calls l => l.Cursor ∧ l.Shows calls) ⟨init_cursor, fun _ _ => rfl⟩
    ?_ hrun
  intro calls call l l' hpre ⟨hcursor, hshows⟩ hstep
  have hlt := hprice call (last_mem hpre)
  have hqty := hpos call (last_mem hpre)
  cases call with
  | add level =>
    have hp : level.price.toNat < N := hlt
    have hsum := hshows.add (hfit.before hpre) hp hstep
    refine ⟨hcursor.add hp ?_ hstep, hsum⟩
    have hlast := (hfit.before hpre).last level.price
    rw [LevelCall.delta_add, if_pos rfl] at hlast
    have hadd := toNat_add_int (hshows level.price hp) hlast
    have hqty' : 0 < level.qty.toNat := UInt64.lt_iff_toNat_lt.mp hqty
    have hzero : (0 : UInt64).toNat = 0 := rfl
    intro hz
    rw [hz] at hadd
    have hold := hshows level.price hp
    omega
  | remove level => exact ⟨hcursor.remove hlt hstep, hshows.remove hcursor.inside hlt hstep⟩

end Run

/-- **The cursor is right, and so is the book.** -/
theorem cursor_right {l : ArrayLevelsV2 S} {calls : List LevelCall}
    (hprice : ∀ call ∈ calls, call.level.price.toNat < N) (hpos : PositiveCalls calls)
    (hfit : Fits calls) (hrun : run change init calls = .ok l) :
    (∀ p : UInt32, ∀ h : p.toNat < N, ((l.book ⟨p.toNat, h⟩).toNat : ℤ) = balance calls p) ∧
      ((∃ k, l.book k ≠ 0) → ∃ i : Fin N, l.bestIdx = i ∧ l.book i ≠ 0 ∧
        (∀ k, l.book k ≠ 0 → if S = Side.Bid then k ≤ i else i ≤ k) ∧
        l.best = .ok ⟨l.book i, UInt32.ofNat l.bestIdx⟩) ∧
      ((∀ k, l.book k = 0) → ∃ level, l.best = .ok level ∧ level.qty = 0) ∧
      ∀ level : Level, level.price.toNat < N → (∃ l', l.remove level = .ok l' ∧ l'.bestIdx < N) ∨
        l.remove level = .error (.unexpected "Remove underflow") := by
  obtain ⟨hcursor, hshows⟩ := cursor_shows hprice hpos hfit hrun
  refine ⟨hshows, ?_, fun hnone => ?_, fun level hp => ?_⟩
  · rintro ⟨k, hk⟩
    refine ⟨⟨l.bestIdx, hcursor.inside⟩, rfl, ?_, hcursor.best, best_inside hcursor.inside⟩
    rcases hcursor.settled with hs | hs
    · have hle := hcursor.best k hk
      rw [hs] at hle
      rwa [show (⟨l.bestIdx, hcursor.inside⟩ : Fin N) = k from
        Fin.ext (hs.trans (eq_sentinel hle).symm)]
    · exact hs _ rfl
  · exact ⟨_, best_inside hcursor.inside, hnone _⟩
  · rcases remove_inside hcursor.inside hp with ⟨-, h⟩ | ⟨-, idx, hidx, h, -⟩
    · exact Or.inr h
    · exact Or.inl ⟨_, h, hidx⟩

theorem cursor_right_sample : ∃ l : ArrayLevelsV2 Side.Bid,
    run change init [.add ⟨5, 10⟩, .add ⟨3, 12⟩, .remove ⟨3, 12⟩] = .ok l ∧
      l.best = .ok ⟨5, 10⟩ ∧
      ((l.book ⟨10, by decide⟩).toNat : ℤ) =
        balance [.add ⟨5, 10⟩, .add ⟨3, 12⟩, .remove ⟨3, 12⟩] 10 :=
  ⟨_, rfl, rfl, (cursor_right (S := Side.Bid) (by decide) (by unfold PositiveCalls; decide)
    (fits_of_sum_lt (by decide)) rfl).1 10 (by decide)⟩

end ArrayLevelsV2

end ItchIngestion.OB
