import ItchIngestion.Library.BinarySearch

/-! # A finite map in two parallel columns

The keys stand in one list, strictly sorted by `r`, and the values in a second list of the same
length. `locate` cuts both columns at a key, in the two cases a caller has to tell apart: the key is
there, or its place is empty. Every update of the columns is then a rewriting of `A ++ key :: B`, and
`find_middle` says what it does to the map.
-/
namespace ItchIngestion.Library
set_option autoImplicit false

variable {α β : Type} [DecidableEq α]

/-! ## The map -/

/-- The value filed under a key. -/
def find (keys : List α) (vals : List β) (key : α) : Option β := (keys.zip vals).lookup key

theorem find_absent {keys : List α} {vals : List β} {key : α} (h : key ∉ keys) :
    find keys vals key = none := by
  rw [find, List.lookup_eq_none_iff]
  rintro ⟨a, b⟩ hab
  have ha : a ∈ keys := (List.of_mem_zip hab).1
  have hne : key ≠ a := fun e => h (e ▸ ha)
  simpa using hne

theorem find_middle {A B : List α} {QA QB : List β} {key : α}
    (q : β) (hl : A.length = QA.length) (hA : key ∉ A) :
    find (A ++ key :: B) (QA ++ q :: QB) =
      Function.update (find (A ++ B) (QA ++ QB)) key (some q) := by
  funext x
  have hcut : find (A ++ B) (QA ++ QB) x = ((A.zip QA).lookup x).or ((B.zip QB).lookup x) := by
    rw [find, List.zip_append hl, List.lookup_append]
  rw [find, List.zip_append hl, List.zip_cons_cons, List.lookup_append, List.lookup_cons]
  by_cases hx : x = key
  · subst hx
    have hnone : (A.zip QA).lookup x = none := find_absent hA
    simp [hnone]
  · have hb : (x == key) = false := by simpa using hx
    rw [Function.update_of_ne hx, hcut, hb]

theorem find_getElem {keys : List α} {vals : List β} {i : ℕ} {key : α} {val : β}
    (hn : keys.Nodup) (hk : keys[i]? = some key) (hv : vals[i]? = some val) :
    find keys vals key = some val := by
  induction keys generalizing vals i with
  | nil => simp at hk
  | cons k keys ih =>
    obtain ⟨hnk, hn⟩ := List.nodup_cons.mp hn
    cases vals with
    | nil => simp at hv
    | cons v vals =>
      rw [find, List.zip_cons_cons, List.lookup_cons]
      cases i with
      | zero =>
        simp only [List.getElem?_cons_zero, Option.some.injEq] at hk hv
        simp [hk, hv]
      | succ i =>
        rw [List.getElem?_cons_succ] at hk hv
        have hne : (key == k) = false := by
          rw [beq_eq_false_iff_ne]
          rintro rfl
          exact hnk (List.mem_of_getElem? hk)
        rw [hne]
        exact ih hn hk hv

theorem find_isSome {keys : List α} {vals : List β} {key : α}
    (hl : keys.length = vals.length) : (find keys vals key).isSome ↔ key ∈ keys := by
  constructor
  · intro h
    by_contra hn
    rw [find_absent hn] at h
    simp at h
  · intro h
    rw [Option.isSome_iff_ne_none]
    intro hn
    rw [find, List.lookup_eq_none_iff] at hn
    obtain ⟨i, hi, rfl⟩ := List.getElem_of_mem h
    have hv : i < vals.length := by omega
    have hmem : (keys[i], vals[i]) ∈ keys.zip vals := by
      rw [List.mem_iff_getElem]
      exact ⟨i, by rw [List.length_zip]; omega, List.getElem_zip ..⟩
    simpa using hn _ hmem

/-! ## Cutting the columns at a key -/

/-- The two columns around a key: `A` precedes it, `B` follows it. -/
inductive Located (r : α → α → Prop) (key : α) : List α → List β → Prop
  | found (A B : List α) (QA : List β) (q : β) (QB : List β) (hl : A.length = QA.length)
      (hr : B.length = QB.length) (hA : ∀ a ∈ A, r a key) (hB : ∀ b ∈ B, r key b) :
      Located r key (A ++ key :: B) (QA ++ q :: QB)
  | absent (A B : List α) (QA QB : List β) (hl : A.length = QA.length)
      (hr : B.length = QB.length) (hA : ∀ a ∈ A, r a key) (hB : ∀ b ∈ B, r key b) :
      Located r key (A ++ B) (QA ++ QB)

omit [DecidableEq α] in
theorem locate {r : α → α → Prop} [DecidableRel r] [IsStrictTotalOrder α r] {keys : List α}
    {vals : List β} (hs : keys.Pairwise r) (hl : keys.length = vals.length) (key : α) :
    Located r key keys vals := by
  obtain ⟨A, B, rfl, hA, hB⟩ := sorted_split hs key
  obtain ⟨QA, QB, rfl, hlA⟩ : ∃ QA QB, vals = QA ++ QB ∧ A.length = QA.length := by
    refine ⟨vals.take A.length, vals.drop A.length, (List.take_append_drop ..).symm, ?_⟩
    rw [List.length_take]
    rw [List.length_append] at hl
    omega
  have hlB : B.length = QB.length := by
    rw [List.length_append, List.length_append] at hl
    omega
  have hsB := (List.pairwise_append.mp hs).2.1
  cases B with
  | nil => exact .absent A [] QA QB hlA hlB hA (by simp)
  | cons b B =>
    obtain ⟨hb, -⟩ := List.pairwise_cons.mp hsB
    rcases trichotomous_of r b key with h | rfl | h
    · exact absurd h (hB b (List.mem_cons_self ..))
    · obtain ⟨q, QB, rfl⟩ : ∃ q QB', QB = q :: QB' := by
        cases QB with
        | nil => simp at hlB
        | cons q QB => exact ⟨q, QB, rfl⟩
      exact .found A B QA q QB hlA (by simpa using hlB) hA hb
    · refine .absent A (b :: B) QA QB hlA hlB hA ?_
      intro c hc
      rcases List.mem_cons.mp hc with rfl | hc
      · exact h
      · exact IsTrans.trans _ _ _ h (hb c hc)

/-! ## Sortedness of the updated key column -/

section Sorted
variable {α : Type} {r : α → α → Prop} {A B : List α} {key : α}

theorem notMem_before [Std.Irrefl r] (hA : ∀ a ∈ A, r a key) : key ∉ A :=
  fun h => irrefl_of r key (hA key h)

theorem notMem_around [Std.Irrefl r] (hA : ∀ a ∈ A, r a key) (hB : ∀ b ∈ B, r key b) : key ∉ A ++ B := by
  rw [List.mem_append]
  rintro (h | h)
  · exact irrefl_of r key (hA key h)
  · exact irrefl_of r key (hB key h)

theorem pairwise_insert (hs : (A ++ B).Pairwise r) (hA : ∀ a ∈ A, r a key)
    (hB : ∀ b ∈ B, r key b) : (A ++ key :: B).Pairwise r := by
  obtain ⟨hsA, hsB, hAB⟩ := List.pairwise_append.mp hs
  refine List.pairwise_append.mpr ⟨hsA, List.pairwise_cons.mpr ⟨hB, hsB⟩, ?_⟩
  intro a ha b hb
  rcases List.mem_cons.mp hb with rfl | hb
  · exact hA a ha
  · exact hAB a ha b hb

theorem pairwise_erase (hs : (A ++ key :: B).Pairwise r) : (A ++ B).Pairwise r :=
  hs.sublist ((List.sublist_cons_self key B).append_left A)

end Sorted

/-! ## Sorted columns are determined by their map -/

section Unique
variable {α : Type} {r : α → α → Prop} [IsStrictOrder α r]

theorem nodup_of_pairwise {xs : List α} (h : xs.Pairwise r) : xs.Nodup := by
  refine h.imp ?_
  rintro a b hab rfl
  exact irrefl_of r a hab

theorem eq_of_pairwise_of_mem {xs ys : List α} (hx : xs.Pairwise r) (hy : ys.Pairwise r)
    (h : ∀ a, a ∈ xs ↔ a ∈ ys) : xs = ys := by
  have hperm : xs.Perm ys :=
    (List.perm_ext_iff_of_nodup (nodup_of_pairwise hx) (nodup_of_pairwise hy)).mpr h
  refine List.Perm.eq_of_pairwise ?_ hx hy hperm
  intro a b _ _ hab hba
  exact absurd hba (asymm_of r hab)

variable [DecidableEq α] {β : Type}

theorem columns_eq {keys keys' : List α} {vals vals' : List β} (hs : keys.Pairwise r)
    (hs' : keys'.Pairwise r) (hl : keys.length = vals.length) (hl' : keys'.length = vals'.length)
    (hfind : ∀ key, find keys vals key = find keys' vals' key) : keys = keys' ∧ vals = vals' := by
  have hkeys : keys = keys' := by
    apply eq_of_pairwise_of_mem hs hs'
    intro key
    rw [← find_isSome hl, ← find_isSome hl', hfind]
  subst hkeys
  refine ⟨rfl, List.ext_getElem (hl.symm.trans hl') fun i hi hi' => ?_⟩
  have hk : keys[i]? = some keys[i] := List.getElem?_eq_getElem (by omega)
  have hv := find_getElem (nodup_of_pairwise hs) hk (List.getElem?_eq_getElem hi)
  have hv' := find_getElem (nodup_of_pairwise hs) hk (List.getElem?_eq_getElem hi')
  rw [hfind, hv'] at hv
  exact (Option.some.inj hv).symm

end Unique

end ItchIngestion.Library
