import Mathlib

/-! # Runs of a fallible step function

`run step s as` executes the actions `as` from `s` and stops at the first failure. A property of the
states is carried through a run by `run_induction`: it grows the run at its end, so the action list
seen so far is the history of the state. `run_total` is the same rule for the claim that a run does
not fail at all.

Side conditions on a run are stated on its prefixes: `Along` on the action about to be executed in
the state it meets, `Throughout` on the states.
-/
namespace ItchIngestion.Library
set_option autoImplicit false

variable {σ α ε : Type} (step : σ → α → Except ε σ)

/-- The actions one after the other, until one fails. -/
def run (s : σ) (as : List α) : Except ε σ := as.foldlM step s

/-- Every action meets `P` in the state before it. -/
def Along (P : σ → α → Prop) (s : σ) (as : List α) : Prop :=
  ∀ pre a post t, as = pre ++ a :: post → run step s pre = .ok t → P t a

/-- Every state on the way meets `Q`. -/
def Throughout (Q : σ → Prop) (s : σ) (as : List α) : Prop :=
  ∀ pre post t, as = pre ++ post → run step s pre = .ok t → Q t

variable {step}

theorem run_nil (s : σ) : run step s [] = .ok s := rfl

theorem run_cons_ok {s u : σ} {a : α} {as : List α} :
    run step s (a :: as) = .ok u ↔ ∃ t, step s a = .ok t ∧ run step t as = .ok u := by
  rw [run, List.foldlM_cons]
  cases step s a with
  | error e => exact iff_of_false (fun h => by cases h) (fun h => by obtain ⟨t, ht, -⟩ := h; cases ht)
  | ok t => exact ⟨fun h => ⟨t, rfl, h⟩, fun h => by obtain ⟨t', ht, h⟩ := h; cases ht; exact h⟩

theorem run_append (s : σ) (as bs : List α) :
    run step s (as ++ bs) = (run step s as).bind fun t => run step t bs :=
  List.foldlM_append ..

theorem run_append_of_ok {s t : σ} {as : List α} (h : run step s as = .ok t) (bs : List α) :
    run step s (as ++ bs) = run step t bs := by
  rw [run_append, h]
  rfl

theorem run_append_of_error {s : σ} {as : List α} {e : ε} (h : run step s as = .error e)
    (bs : List α) : run step s (as ++ bs) = .error e := by
  rw [run_append, h]
  rfl

theorem run_concat {s : σ} {as : List α} {t : σ} (h : run step s as = .ok t) (a : α) :
    run step s (as ++ [a]) = step t a := by
  rw [run_append_of_ok h]
  exact bind_pure (step t a)

theorem run_singleton (s : σ) (a : α) : run step s [a] = step s a := run_concat (run_nil s) a

theorem run_append_ok {s u : σ} {as bs : List α} :
    run step s (as ++ bs) = .ok u ↔ ∃ t, run step s as = .ok t ∧ run step t bs = .ok u := by
  rw [run_append]
  cases run step s as with
  | error e => exact iff_of_false (fun h => by cases h) (fun h => by obtain ⟨t, ht, -⟩ := h; cases ht)
  | ok t => exact ⟨fun h => ⟨t, rfl, h⟩, fun h => by obtain ⟨t', ht, h⟩ := h; cases ht; exact h⟩

theorem run_concat_ok {s : σ} {as : List α} {a : α} {u : σ} (h : run step s (as ++ [a]) = .ok u) :
    ∃ t, run step s as = .ok t ∧ step t a = .ok u := by
  cases ht : run step s as with
  | error e =>
    rw [run_append_of_error ht] at h
    cases h
  | ok t => exact ⟨t, rfl, (run_concat ht a).symm.trans h⟩

/-- A list one longer, cut in two: the cut is at its end or inside. -/
theorem split_concat {as pre post : List α} {a : α} (h : as ++ [a] = pre ++ post) :
    (post = [] ∧ pre = as ++ [a]) ∨ ∃ post', post = post' ++ [a] ∧ as = pre ++ post' := by
  cases post using List.reverseRecOn with
  | nil => exact Or.inl ⟨rfl, by rw [h, List.append_nil]⟩
  | append_singleton post' b =>
    rw [← List.append_assoc] at h
    obtain ⟨has, hab⟩ := List.append_inj' h rfl
    cases hab
    exact Or.inr ⟨post', rfl, has⟩

theorem split_concat_cons {as pre post : List α} {a b : α} (h : as ++ [a] = pre ++ b :: post) :
    (pre = as ∧ b = a ∧ post = []) ∨ ∃ post', post = post' ++ [a] ∧ as = pre ++ b :: post' := by
  rcases split_concat h with ⟨hnil, -⟩ | ⟨post', hpost, has⟩
  · cases hnil
  · cases post' with
    | nil =>
      obtain ⟨hab, hpost⟩ := List.cons.inj hpost
      exact Or.inl ⟨by rw [has, List.append_nil], hab, hpost⟩
    | cons c post' =>
      obtain ⟨rfl, htail⟩ := List.cons.inj hpost
      exact Or.inr ⟨post', htail, has⟩

section Prefix
variable {P : σ → α → Prop} {Q : σ → Prop} {s : σ} {as bs : List α}

theorem Along.left (h : Along step P s (as ++ bs)) : Along step P s as := by
  intro pre a post t he ht
  exact h pre a (post ++ bs) t (by rw [he, List.append_assoc, List.cons_append]) ht

theorem Along.right {t : σ} (h : Along step P s (as ++ bs)) (ht : run step s as = .ok t) :
    Along step P t bs := by
  intro pre a post u he hu
  exact h (as ++ pre) a post u (by rw [he, List.append_assoc]) ((run_append_of_ok ht pre).trans hu)

theorem Along.last {a : α} {t : σ} (h : Along step P s (as ++ [a])) (ht : run step s as = .ok t) :
    P t a := h as a [] t rfl ht

theorem Throughout.left (h : Throughout step Q s (as ++ bs)) : Throughout step Q s as := by
  intro pre post t he ht
  exact h pre (post ++ bs) t (by rw [he, List.append_assoc]) ht

theorem Throughout.last {t : σ} (h : Throughout step Q s as) (ht : run step s as = .ok t) : Q t :=
  h as [] t (List.append_nil as).symm ht

theorem Along.nil : Along step P s [] := by
  intro pre a post t he
  simp at he

theorem Along.cons {a : α} {t : σ} (hstep : step s a = .ok t) (hP : P s a)
    (h : Along step P t as) : Along step P s (a :: as) := by
  intro pre b post u he hu
  cases pre with
  | nil =>
    obtain ⟨rfl, -⟩ := List.cons.inj he
    cases hu
    exact hP
  | cons c pre =>
    obtain ⟨rfl, hes⟩ := List.cons.inj he
    rw [run, List.foldlM_cons, hstep] at hu
    exact h pre b post u hes hu

theorem Along.concat {a : α} {t : σ} (h : Along step P s as) (ht : run step s as = .ok t)
    (hP : P t a) : Along step P s (as ++ [a]) := by
  intro pre b post u he hu
  rcases split_concat_cons he with ⟨rfl, rfl, -⟩ | ⟨post, -, has⟩
  · rw [ht] at hu
    cases hu
    exact hP
  · exact h pre b post u has hu

theorem Throughout.nil_iff : Throughout step Q s [] ↔ Q s := by
  constructor
  · exact fun h => h.last (run_nil s)
  · intro hQ pre post t he ht
    obtain ⟨rfl, -⟩ := List.append_eq_nil_iff.mp he.symm
    cases ht
    exact hQ

theorem Throughout.concat_iff {a : α} {u : σ} (hu : run step s (as ++ [a]) = .ok u) :
    Throughout step Q s (as ++ [a]) ↔ Throughout step Q s as ∧ Q u := by
  constructor
  · exact fun h => ⟨h.left, h.last hu⟩
  · rintro ⟨h, hQ⟩ pre post t he ht
    rcases split_concat he with ⟨-, rfl⟩ | ⟨post, -, has⟩
    · rw [hu] at ht
      cases ht
      exact hQ
    · exact h pre post t has ht

theorem Along.imp {P' : σ → α → Prop} (h : Along step P s as) (himp : ∀ t a, P t a → P' t a) :
    Along step P' s as :=
  fun pre a post t he ht => himp t a (h pre a post t he ht)

theorem Along.and {P' : σ → α → Prop} (h : Along step P s as) (h' : Along step P' s as) :
    Along step (fun t a => P t a ∧ P' t a) s as :=
  fun pre a post t he ht => ⟨h pre a post t he ht, h' pre a post t he ht⟩

/-- What holds of the states holds of the state after each action. -/
theorem Throughout.along (h : Throughout step Q s as) :
    Along step (fun t a => ∀ u, step t a = .ok u → Q u) s as := by
  intro pre a post t he ht u hu
  exact h (pre ++ [a]) post u (by rw [he]; simp) ((run_concat ht a).trans hu)

theorem Throughout.nil (hQ : Q s) : Throughout step Q s [] := Throughout.nil_iff.mpr hQ

theorem Throughout.cons {a : α} {t : σ} (hstep : step s a = .ok t) (hQ : Q s)
    (h : Throughout step Q t as) : Throughout step Q s (a :: as) := by
  intro pre post u he hu
  cases pre with
  | nil =>
    cases hu
    exact hQ
  | cons c pre =>
    obtain ⟨rfl, hes⟩ := List.cons.inj he
    rw [run, List.foldlM_cons, hstep] at hu
    exact h pre post u hes hu

end Prefix

/-- **Invariants of successful runs.** -/
theorem run_induction {P : σ → α → Prop} {Q : σ → Prop} (Inv : List α → σ → Prop) {s : σ}
    (hinit : Inv [] s)
    (hstep : ∀ as t a u, Inv as t → P t a → Q u → step t a = .ok u → Inv (as ++ [a]) u)
    {as : List α} {t : σ} (hP : Along step P s as) (hQ : Throughout step Q s as)
    (h : run step s as = .ok t) : Inv as t := by
  induction as using List.reverseRecOn generalizing t with
  | nil =>
    cases h
    exact hinit
  | append_singleton as a ih =>
    obtain ⟨t', ht', ha⟩ := run_concat_ok h
    exact hstep as t' a t (ih hP.left hQ.left ht') (hP.last ht') (hQ.last h) ha

theorem run_invariant (Inv : σ → Prop) {s t : σ} {as : List α} (hinit : Inv s)
    (hstep : ∀ t a u, Inv t → step t a = .ok u → Inv u) (h : run step s as = .ok t) : Inv t :=
  run_induction (P := fun _ _ => True) (Q := fun _ => True) (fun _ t => Inv t) hinit
    (fun _ t a u hinv _ _ hu => hstep t a u hinv hu) (fun _ _ _ _ _ _ => trivial)
    (fun _ _ _ _ _ => trivial) h

/-- The rule for a condition on the whole history: each step may use that it is one of the run. -/
theorem run_prefix_induction (Inv : List α → σ → Prop) {s t : σ} {as : List α} (hinit : Inv [] s)
    (hstep : ∀ pre a t u, pre ++ [a] <+: as → Inv pre t → step t a = .ok u → Inv (pre ++ [a]) u)
    (h : run step s as = .ok t) : Inv as t := by
  induction as using List.reverseRecOn generalizing t with
  | nil =>
    cases h
    exact hinit
  | append_singleton as a ih =>
    obtain ⟨t', ht', ha⟩ := run_concat_ok h
    refine hstep as a t' t (List.prefix_refl _) (ih ?_ ht') ha
    intro pre b t u hpre
    exact hstep pre b t u (hpre.trans (List.prefix_append as [a]))

/-- **Runs that cannot fail.** -/
theorem run_total {P : σ → α → Prop} {Q : σ → Prop} (Inv : List α → σ → Prop) {s : σ}
    (hinit : Inv [] s)
    (hstep : ∀ as t a, Inv as t → P t a → ∃ u, step t a = .ok u ∧ (Q u → Inv (as ++ [a]) u))
    {as : List α} (hP : Along step P s as) (hQ : Throughout step Q s as) :
    ∃ t, run step s as = .ok t ∧ Inv as t := by
  induction as using List.reverseRecOn with
  | nil => exact ⟨s, rfl, hinit⟩
  | append_singleton as a ih =>
    obtain ⟨t, ht, hinv⟩ := ih hP.left hQ.left
    obtain ⟨u, hu, hnext⟩ := hstep as t a hinv (hP.last ht)
    have hrun : run step s (as ++ [a]) = .ok u := (run_concat ht a).trans hu
    exact ⟨u, hrun, hnext (hQ.last hrun)⟩

/-- A run that fails does so at one action, in a state that it reached. -/
theorem run_error {s : σ} {as : List α} {e : ε} (h : run step s as = .error e) :
    ∃ pre a post t, as = pre ++ a :: post ∧ run step s pre = .ok t ∧ step t a = .error e := by
  induction as using List.reverseRecOn with
  | nil => cases h
  | append_singleton as a ih =>
    cases ht : run step s as with
    | error e' =>
      rw [run_append_of_error ht] at h
      cases h
      obtain ⟨pre, b, post, t, rfl, hpre, hb⟩ := ih ht
      exact ⟨pre, b, post ++ [a], t, by rw [List.append_assoc, List.cons_append], hpre, hb⟩
    | ok t => exact ⟨as, a, [], t, rfl, ht, (run_concat ht a).symm.trans h⟩

theorem run_error_of {s t : σ} {pre post : List α} {a : α} {e : ε} (h : run step s pre = .ok t)
    (ha : step t a = .error e) : run step s (pre ++ a :: post) = .error e := by
  rw [run_append_of_ok h, run, List.foldlM_cons, ha]
  rfl

/-! ## Lockstep

Two machines that take the same actions. They fail together, with failures that `F` relates, or
both go on, in states that `R` relates. -/

section Lockstep
variable {τ ε' : Type} (step' : τ → α → Except ε' τ) (R : σ → τ → Prop) (F : ε → ε' → Prop)

variable (step) in
/-- Related states fail together, or step to related states. -/
def Lockstep : Prop := ∀ s t a, R s t →
  (∃ e e', step s a = .error e ∧ step' t a = .error e' ∧ F e e') ∨
    ∃ s' t', step s a = .ok s' ∧ step' t a = .ok t' ∧ R s' t'

variable {step' R F} {s s' : σ} {t : τ} {a : α} {as : List α} {e : ε}

theorem Lockstep.error (h : Lockstep step step' R F) (hR : R s t) (hs : step s a = .error e) :
    ∃ e', step' t a = .error e' ∧ F e e' := by
  rcases h s t a hR with ⟨e₁, e', he, he', hF⟩ | ⟨s', t', hs', -⟩
  · rw [hs] at he
    cases he
    exact ⟨e', he', hF⟩
  · rw [hs] at hs'
    cases hs'

/-- **Runs in lockstep**, under a side condition on the second machine. -/
theorem run_lockstep {P : τ → α → Prop}
    (h : ∀ s t a, R s t → P t a →
      (∃ e e', step s a = .error e ∧ step' t a = .error e' ∧ F e e') ∨
        ∃ s' t', step s a = .ok s' ∧ step' t a = .ok t' ∧ R s' t')
    (hR : R s t) (hP : Along step' P t as) :
    (∃ e e', run step s as = .error e ∧ run step' t as = .error e' ∧ F e e') ∨
      ∃ s' t', run step s as = .ok s' ∧ run step' t as = .ok t' ∧ R s' t' := by
  induction as using List.reverseRecOn with
  | nil => exact Or.inr ⟨s, t, rfl, rfl, hR⟩
  | append_singleton as a ih =>
    rcases ih hP.left with ⟨e, e', hs, ht, hF⟩ | ⟨s', t', hs, ht, hR'⟩
    · exact Or.inl ⟨e, e', run_append_of_error hs [a], run_append_of_error ht [a], hF⟩
    · rw [run_concat hs, run_concat ht]
      exact h s' t' a hR' (hP.last ht)

theorem Lockstep.run_ok (h : Lockstep step step' R F) (hR : R s t) (hrun : run step s as = .ok s') :
    ∃ t', run step' t as = .ok t' ∧ R s' t' := by
  have hP : Along step' (fun _ _ => True) t as := fun _ _ _ _ _ _ => trivial
  rcases run_lockstep (fun s t a hR _ => h s t a hR) hR hP with ⟨e, e', he, -⟩ | ⟨s₁, t', hs, ht, hR'⟩
  · rw [hrun] at he
    cases he
  · rw [hrun] at hs
    cases hs
    exact ⟨t', ht, hR'⟩

end Lockstep

/-! ## One machine behind another

The first machine runs through. Where the second one can take the step of the first is a condition
on the history and the step (`C`), and where it takes it `R` goes on. -/

section Follows
variable {τ ε' : Type} {step' : τ → α → Except ε' τ} {P : σ → α → Prop}
  (R : List α → σ → τ → Prop) (C : List α → α → σ → Prop)

theorem run_follows {s s' : σ} {t : τ} {as : List α}
    (hstep : ∀ pre a u v w, run step s pre = .ok u → R pre u w → P u a → step u a = .ok v →
      ((∃ w', step' w a = .ok w') ↔ C pre a v) ∧ ∀ w', step' w a = .ok w' → R (pre ++ [a]) v w')
    (hR : R [] s t) (hP : Along step P s as) (h : run step s as = .ok s') :
    ((∃ t', run step' t as = .ok t') ↔
        ∀ pre a u, pre ++ [a] <+: as → run step s (pre ++ [a]) = .ok u → C pre a u) ∧
      ∀ t', run step' t as = .ok t' → R as s' t' := by
  induction as using List.reverseRecOn generalizing s' with
  | nil =>
    cases h
    refine ⟨iff_of_true ⟨t, rfl⟩ fun pre a u hpre => ?_, ?_⟩
    · simp at hpre
    · rintro t' ht
      cases ht
      exact hR
  | append_singleton as a ih =>
    obtain ⟨u, hu, ha⟩ := run_concat_ok h
    obtain ⟨hall, hnext⟩ := ih hP.left hu
    refine ⟨⟨?_, fun hC => ?_⟩, ?_⟩
    · rintro ⟨t', ht⟩ pre b v hpre hv
      obtain ⟨w, hw, hb⟩ := run_concat_ok ht
      rcases List.prefix_concat_iff.mp hpre with heq | hshort
      · obtain ⟨rfl, hab⟩ := List.append_inj' heq rfl
        cases hab
        rw [h] at hv
        cases hv
        exact (hstep _ _ _ _ w hu (hnext w hw) (hP.last hu) ha).1.mp ⟨t', hb⟩
      · exact hall.mp ⟨w, hw⟩ pre b v hshort hv
    · obtain ⟨w, hw⟩ := hall.mpr fun pre b v hpre hv => hC pre b v (hpre.trans (List.prefix_append _ _)) hv
      obtain ⟨w', hw'⟩ := (hstep _ _ _ _ w hu (hnext w hw) (hP.last hu) ha).1.mpr
        (hC as a s' (List.prefix_refl _) h)
      exact ⟨w', (run_concat hw a).trans hw'⟩
    · rintro t' ht
      obtain ⟨w, hw, hb⟩ := run_concat_ok ht
      exact (hstep _ _ _ _ w hu (hnext w hw) (hP.last hu) ha).2 t' hb

end Follows

/-! ## Tandem

The weaker form of lockstep that a side condition on the second machine allows. The failures are the
same ones. -/

section Tandem
variable {τ : Type} {step' : τ → α → Except ε τ} {R : σ → τ → Prop} {P : τ → α → Prop}

/-- The two outcomes are the same failure, or related states. -/
def Tandem (R : σ → τ → Prop) (x : Except ε σ) (y : Except ε τ) : Prop :=
  (∃ e, x = .error e ∧ y = .error e) ∨ ∃ s t, x = .ok s ∧ y = .ok t ∧ R s t

theorem Tandem.ok {x : Except ε σ} {y : Except ε τ} {s : σ} (h : Tandem R x y) (hx : x = .ok s) :
    ∃ t, y = .ok t ∧ R s t := by
  subst hx
  rcases h with ⟨e, he, -⟩ | ⟨s', t, hs', ht, hR⟩
  · cases he
  · cases hs'
    exact ⟨t, ht, hR⟩

theorem Tandem.error {x : Except ε σ} {y : Except ε τ} {e : ε} (h : Tandem R x y)
    (hx : x = .error e) : y = .error e := by
  subst hx
  rcases h with ⟨e', he', hy⟩ | ⟨s, t, hs, -⟩
  · cases he'
    exact hy
  · cases hs

/-- **Runs in tandem.** -/
theorem run_tandem (h : ∀ s t a, R s t → P t a → Tandem R (step s a) (step' t a)) {s : σ} {t : τ}
    (hR : R s t) {as : List α} (hP : Along step' P t as) :
    Tandem R (run step s as) (run step' t as) := by
  have hstep : ∀ s t a, R s t → P t a →
      (∃ e e', step s a = .error e ∧ step' t a = .error e' ∧ e = e') ∨
        ∃ s' t', step s a = .ok s' ∧ step' t a = .ok t' ∧ R s' t' := by
    intro s t a hR hPa
    rcases h s t a hR hPa with ⟨e, hs, ht⟩ | hok
    · exact Or.inl ⟨e, e, hs, ht, rfl⟩
    · exact Or.inr hok
  rcases run_lockstep hstep hR hP with ⟨e, e', hs, ht, rfl⟩ | hok
  · exact Or.inl ⟨e, hs, ht⟩
  · exact Or.inr hok

end Tandem

/-! ## Sums along a run -/

variable (step) in
/-- The sum of a weight of the actions, each weighed in the state it meets. -/
def runSum (w : σ → α → ℕ) : σ → List α → ℕ
  | _, [] => 0
  | s, a :: as => w s a + match step s a with
    | .ok t => runSum w t as
    | .error _ => 0

theorem runSum_concat (w : σ → α → ℕ) {s : σ} {as : List α} {t : σ}
    (h : run step s as = .ok t) (a : α) : runSum step w s (as ++ [a]) = runSum step w s as + w t a := by
  induction as generalizing s with
  | nil =>
    obtain rfl : s = t := by simpa [run_nil] using h
    rw [List.nil_append, runSum, runSum, Nat.zero_add, Nat.add_eq_left]
    split <;> rfl
  | cons b as ih =>
    rw [run, List.foldlM_cons] at h
    cases hb : step s b with
    | error e =>
      rw [hb] at h
      cases h
    | ok u =>
      rw [hb] at h
      rw [List.cons_append, runSum, runSum, hb]
      dsimp only
      rw [ih h]
      omega

end ItchIngestion.Library
