import Mathlib

/-! # Tables of buckets with a reserved key

A table has buckets of `n` slots each. A slot whose key is `free` holds nothing, and its value is
left over from earlier. `Files home free t m` says that the table `t` stands for the map `m`: every
key is in its home bucket and in one slot only. Under it a scan finds the same slot from either end
of a bucket. `Files.put` is the one rule for changing a slot; to insert, overwrite and erase are its
special cases.
-/
namespace ItchIngestion.Library
set_option autoImplicit false

/-! ## Scans -/

section Scan
variable {n : ℕ}

/-- The first hit of a loop that counts up. -/
def scanUp (p : Fin n → Bool) : Option (Fin n) := (List.finRange n).find? p

/-- The first hit of a loop that counts down. -/
def scanDown (p : Fin n → Bool) : Option (Fin n) := (List.finRange n).reverse.find? p

variable {p : Fin n → Bool} {i : Fin n}

theorem scanUp_eq_none : scanUp p = none ↔ ∀ i, p i = false := by
  simp [scanUp, List.find?_eq_none]

theorem scanDown_eq_none : scanDown p = none ↔ ∀ i, p i = false := by
  simp [scanDown, List.find?_eq_none]

theorem scanUp_some (h : scanUp p = some i) : p i = true := List.find?_some h

theorem scanDown_some (h : scanDown p = some i) : p i = true := List.find?_some h

section Unique
variable (huniq : ∀ i j, p i = true → p j = true → i = j)
include huniq

theorem scanUp_eq_some : scanUp p = some i ↔ p i = true := by
  refine ⟨scanUp_some, fun hi => ?_⟩
  cases h : scanUp p with
  | none => rw [scanUp_eq_none.mp h i] at hi; cases hi
  | some j => rw [huniq j i (scanUp_some h) hi]

theorem scanDown_eq_scanUp : scanDown p = scanUp p := by
  cases h : scanDown p with
  | none => exact (scanUp_eq_none.mpr (scanDown_eq_none.mp h)).symm
  | some i => exact ((scanUp_eq_some huniq).mpr (scanDown_some h)).symm

end Unique
end Scan

/-! ## Tables -/

/-- A key and its value. -/
structure Slot (K V : Type) where
  key : K
  value : V
deriving DecidableEq

theorem Slot.eq_mk {K V : Type} {s : Slot K V} {k : K} (h : s.key = k) : s = ⟨k, s.value⟩ := by
  rw [← h]

section Table
variable {B K V : Type} {n : ℕ} [DecidableEq B]

/-- The table with one slot changed. -/
def putSlot (t : B → Fin n → Slot K V) (b : B) (i : Fin n) (s : Slot K V) : B → Fin n → Slot K V :=
  Function.update t b (Function.update (t b) i s)

theorem putSlot_apply (t : B → Fin n → Slot K V) (b c : B) (i j : Fin n) (s : Slot K V) :
    putSlot t b i s c j = if c = b ∧ j = i then s else t c j := by
  by_cases hc : c = b
  · subst hc
    rw [putSlot, Function.update_self, Function.update_apply]
    simp
  · rw [putSlot, Function.update_of_ne hc, if_neg (fun h => hc h.1)]

/-- The table files the map: every key in its home bucket, in one slot, with its value. -/
structure Files (home : K → B) (free : K) (t : B → Fin n → Slot K V) (m : K → Option V) : Prop where
  homed : ∀ b i, (t b i).key ≠ free → home (t b i).key = b
  unique : ∀ b i j, (t b i).key = (t b j).key → (t b i).key ≠ free → i = j
  lookup : ∀ k v, m k = some v ↔ k ≠ free ∧ ∃ i, t (home k) i = ⟨k, v⟩

variable {home : K → B} {free : K} {t : B → Fin n → Slot K V} {m : K → Option V}

omit [DecidableEq B] in
theorem files_empty {t : B → Fin n → Slot K V} (h : ∀ b i, (t b i).key = free) :
    Files home free t (fun _ => none) where
  homed b i hne := absurd (h b i) hne
  unique b i j _ hne := absurd (h b i) hne
  lookup k v := by
    refine iff_of_false (fun hkv => by cases hkv) ?_
    rintro ⟨hne, i, hi⟩
    have hk := h (home k) i
    rw [hi] at hk
    exact hne hk

namespace Files
omit [DecidableEq B]

theorem of_slot (h : Files home free t m) {b : B} {i : Fin n} (hne : (t b i).key ≠ free) :
    m (t b i).key = some (t b i).value := by
  refine (h.lookup _ _).mpr ⟨hne, i, ?_⟩
  rw [h.homed b i hne]

theorem of_key (h : Files home free t m) {k : K} (hk : k ≠ free) {i : Fin n}
    (hi : (t (home k) i).key = k) : m k = some (t (home k) i).value :=
  (h.lookup k _).mpr ⟨hk, i, Slot.eq_mk hi⟩

theorem eq_none_iff (h : Files home free t m) {k : K} (hk : k ≠ free) :
    m k = none ↔ ∀ i, (t (home k) i).key ≠ k := by
  constructor
  · intro hnone i hi
    rw [h.of_key hk hi] at hnone
    cases hnone
  · intro hall
    rw [Option.eq_none_iff_forall_ne_some]
    intro v hv
    obtain ⟨-, i, hi⟩ := (h.lookup k v).mp hv
    exact hall i (by rw [hi])

theorem key_unique (h : Files home free t m) {k : K} (hk : k ≠ free) {i j : Fin n}
    (hi : (t (home k) i).key = k) (hj : (t (home k) j).key = k) : i = j := by
  refine h.unique _ i j (hi.trans hj.symm) ?_
  rwa [hi]

theorem free_eq_none (h : Files home free t m) : m free = none := by
  rw [Option.eq_none_iff_forall_ne_some]
  intro v hv
  exact ((h.lookup free v).mp hv).1 rfl

end Files

/-! ## Changing a slot -/

section Put
variable {b : B} {i : Fin n} {s : Slot K V} {k : K} {v : V}

theorem putSlot_new (hnew : ∀ j, j ≠ i → (t b j).key ≠ s.key) :
    (∃ j, putSlot t b i s b j = ⟨s.key, v⟩) ↔ s.value = v := by
  constructor
  · rintro ⟨j, hj⟩
    rw [putSlot_apply] at hj
    split at hj
    · rw [hj]
    · rename_i hc
      refine absurd ?_ (hnew j fun hji => hc ⟨rfl, hji⟩)
      rw [hj]
  · rintro rfl
    refine ⟨i, ?_⟩
    rw [putSlot_apply, if_pos ⟨rfl, rfl⟩]

theorem Files.putSlot_old (h : Files home free t m) (hold : (t b i).key ≠ free)
    (hne : (t b i).key ≠ s.key) (j : Fin n) : putSlot t b i s b j ≠ ⟨(t b i).key, v⟩ := by
  intro hj
  rw [putSlot_apply] at hj
  split at hj
  · rw [hj] at hne
    exact hne rfl
  · rename_i hc
    have hkey : (t b j).key = (t b i).key := by rw [hj]
    exact hc ⟨rfl, h.unique b j i hkey (hkey ▸ hold)⟩

theorem putSlot_other (c : B) (hk : k ≠ s.key) (hold : k ≠ (t b i).key) :
    (∃ j, putSlot t b i s c j = ⟨k, v⟩) ↔ ∃ j, t c j = ⟨k, v⟩ := by
  refine exists_congr fun j => ?_
  rw [putSlot_apply]
  split
  · rename_i hc
    refine iff_of_false (fun hj => hk ?_) (fun hj => hold ?_)
    · rw [hj]
    · rw [← hc.1, ← hc.2, hj]
  · exact Iff.rfl

end Put

variable [DecidableEq K]

/-- What the map becomes when `new` takes the place of `old`. -/
def refile (free : K) (old new : Slot K V) (m : K → Option V) (k : K) : Option V :=
  if k = free then none
  else if k = new.key then some new.value
  else if k = old.key then none
  else m k

/-- **One slot changes.** The new key must be at home there and in no other slot. -/
theorem Files.put (h : Files home free t m) {b : B} {i : Fin n} {s : Slot K V}
    (hhome : s.key ≠ free → home s.key = b)
    (hnew : s.key ≠ free → ∀ j, j ≠ i → (t b j).key ≠ s.key) :
    Files home free (putSlot t b i s) (refile free (t b i) s m) where
  homed c j hne := by
    rw [putSlot_apply] at hne ⊢
    split
    · rename_i hc
      rw [if_pos hc] at hne
      rw [hhome hne, hc.1]
    · rename_i hc
      rw [if_neg hc] at hne
      exact h.homed c j hne
  unique c j₁ j₂ he hne := by
    rw [putSlot_apply, putSlot_apply] at he
    rw [putSlot_apply] at hne
    by_cases h₁ : c = b ∧ j₁ = i <;> by_cases h₂ : c = b ∧ j₂ = i
    · rw [h₁.2, h₂.2]
    · rw [if_pos h₁, if_neg h₂] at he
      rw [if_pos h₁] at hne
      exact absurd (h₁.1 ▸ he.symm) (hnew hne j₂ fun hj => h₂ ⟨h₁.1, hj⟩)
    · rw [if_neg h₁, if_pos h₂] at he
      rw [if_neg h₁, he] at hne
      exact absurd (h₂.1 ▸ he) (hnew hne j₁ fun hj => h₁ ⟨h₂.1, hj⟩)
    · rw [if_neg h₁, if_neg h₂] at he
      rw [if_neg h₁] at hne
      exact h.unique c j₁ j₂ he hne
  lookup k v := by
    rw [refile]
    by_cases hfree : k = free
    · rw [if_pos hfree]
      exact iff_of_false (fun hkv => by cases hkv) (fun hkv => hkv.1 hfree)
    rw [if_neg hfree]
    by_cases hk : k = s.key
    · subst hk
      rw [if_pos rfl, hhome hfree, putSlot_new (hnew hfree), Option.some_inj]
      exact (and_iff_right hfree).symm
    by_cases hold : k = (t b i).key
    · subst hold
      rw [if_neg hk, if_pos rfl, h.homed b i hfree]
      refine iff_of_false (fun hkv => by cases hkv) ?_
      rintro ⟨-, j, hj⟩
      exact h.putSlot_old hfree hk j hj
    · rw [if_neg hk, if_neg hold, h.lookup, putSlot_other _ hk hold]

section Cases
variable {b : B} {i : Fin n} {k : K} (v : V)

theorem Files.insert (h : Files home free t m) (hk : k ≠ free) (hi : (t (home k) i).key = free)
    (hnone : m k = none) :
    Files home free (putSlot t (home k) i ⟨k, v⟩) (Function.update m k (some v)) := by
  have hput := h.put (b := home k) (i := i) (s := ⟨k, v⟩) (fun _ => rfl)
    (fun _ j _ => (h.eq_none_iff hk).mp hnone j)
  convert hput using 1
  funext k'
  by_cases hk' : k' = k
  · subst hk'
    rw [Function.update_self, refile, if_neg hk, if_pos rfl]
  · rw [Function.update_of_ne hk', refile, if_neg hk', hi]
    split
    · rename_i hf
      rw [hf, h.free_eq_none]
    · rfl

theorem Files.write (h : Files home free t m) (hne : (t b i).key ≠ free) :
    Files home free (putSlot t b i ⟨(t b i).key, v⟩) (Function.update m (t b i).key (some v)) := by
  have hput := h.put (b := b) (i := i) (s := ⟨(t b i).key, v⟩) (h.homed b i)
    (fun _ j hj he => hj (h.unique b i j he.symm hne).symm)
  convert hput using 1
  funext k'
  by_cases hk' : k' = (t b i).key
  · subst hk'
    rw [Function.update_self, refile, if_neg hne, if_pos rfl]
  · rw [Function.update_of_ne hk', refile, if_neg hk', if_neg hk']
    split
    · rename_i hf
      rw [hf, h.free_eq_none]
    · rfl

theorem Files.write_free (h : Files home free t m) (hfree : (t b i).key = free) :
    Files home free (putSlot t b i ⟨free, v⟩) m := by
  have hput := h.put (b := b) (i := i) (s := ⟨free, v⟩) (fun hne => absurd rfl hne)
    (fun hne => absurd rfl hne)
  convert hput using 1
  funext k'
  rw [refile, hfree]
  by_cases hk' : k' = free
  · rw [if_pos hk', hk', h.free_eq_none]
  · rw [if_neg hk', if_neg hk', if_neg hk']

theorem Files.erase (h : Files home free t m) (hne : (t b i).key ≠ free) :
    Files home free (putSlot t b i ⟨free, v⟩) (Function.update m (t b i).key none) := by
  have hput := h.put (b := b) (i := i) (s := ⟨free, v⟩) (fun hne => absurd rfl hne)
    (fun hne => absurd rfl hne)
  convert hput using 1
  funext k'
  rw [refile]
  by_cases hk' : k' = (t b i).key
  · rw [hk', Function.update_self, if_neg hne, if_neg hne, if_pos rfl]
  · rw [Function.update_of_ne hk']
    split
    · rename_i hf
      rw [hf, h.free_eq_none]
    · rename_i hf
      rfl

end Cases

/-! ## Room -/

omit [DecidableEq B] in
theorem Files.exists_free (h : Files home free t m) {b : B} (ks : Finset K)
    (hks : ∀ k, (m k).isSome → home k = b → k ∈ ks) (hcard : ks.card < n) :
    ∃ i, (t b i).key = free := by
  by_contra hfull
  push Not at hfull
  have hinj : Function.Injective fun i : Fin n => (t b i).key := fun i j he =>
    h.unique b i j he (hfull i)
  have hsub : Finset.univ.image (fun i : Fin n => (t b i).key) ⊆ ks := by
    intro k hk
    obtain ⟨i, -, rfl⟩ := Finset.mem_image.mp hk
    refine hks _ ?_ (h.homed b i (hfull i))
    rw [h.of_slot (hfull i)]
    rfl
  have hle := Finset.card_le_card hsub
  rw [Finset.card_image_of_injective _ hinj, Finset.card_univ, Fintype.card_fin] at hle
  omega

end Table

end ItchIngestion.Library
