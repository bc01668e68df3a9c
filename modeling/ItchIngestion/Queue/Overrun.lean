import ItchIngestion.Queue.Broadcast

/-! # Every `pop` reports overrun and emptiness exactly

A `pop` ends at its first load or at its second. What it reports there is compared with the pushes
begun and finished at that moment (`Pop.Exact`). The comparison is exact as long as the expected
version does not wrap around to zero, which takes `2 ^ 63` generations: with a single slot, one push
less than the versions can count.
-/
namespace ItchIngestion.SPMC
open Library
set_option autoImplicit false

/-! ## What a `pop` must report -/

section Exact
variable {ι Word C : Type} (g : Geometry)

/-- Push `reader + bufferSize` had begun at the first load, or after a first load that saw push
`reader` complete and before the second load. -/
def Pop.Overrun (p : Pop ι Word C) : Prop :=
  p.reader.toNat + g.bufferSize < p.first.begun ∨
    p.reader.toNat < p.first.finished ∧
      ∃ second ∈ p.second, p.reader.toNat + g.bufferSize < second.begun

/-- A `pop` ends as the pushes at its loads say. -/
structure Pop.Exact (p : Pop ι Word C) : Prop where
  empty : p.outcome = .empty ↔ p.first.finished ≤ p.reader.toNat
  overrun : p.outcome = .overrun ↔ p.Overrun g
  returned : p.outcome = .returned ↔ p.reader.toNat < p.first.finished ∧ ¬ p.Overrun g
  unchanged : p.outcome = .empty → p.after = some (p.reader, p.dst)

variable {g} {p : Pop ι Word C}

theorem Pop.Exact.of_empty (hout : p.outcome = .empty) (hfirst : p.first.finished ≤ p.reader.toNat)
    (hover : ¬ p.Overrun g) (hafter : p.after = some (p.reader, p.dst)) : p.Exact g where
  empty := ⟨fun _ => hfirst, fun _ => hout⟩
  overrun := by simp [hout, hover]
  returned := by simp [hout, Nat.not_lt.mpr hfirst]
  unchanged _ := hafter

theorem Pop.Exact.of_overrun (hout : p.outcome = .overrun)
    (hfirst : p.reader.toNat < p.first.finished) (hover : p.Overrun g) : p.Exact g where
  empty := by simp [hout, Nat.not_le.mpr hfirst]
  overrun := ⟨fun _ => hover, fun _ => hout⟩
  returned := by simp [hout, hover]
  unchanged := by simp [hout]

theorem Pop.Exact.of_returned (hout : p.outcome = .returned)
    (hfirst : p.reader.toNat < p.first.finished) (hover : ¬ p.Overrun g) : p.Exact g where
  empty := by simp [hout, Nat.not_le.mpr hfirst]
  overrun := by simp [hout, hover]
  returned := ⟨fun _ => ⟨hfirst, hover⟩, fun _ => hout⟩
  unchanged := by simp [hout]

end Exact

/-! ## One step -/

section Step
variable {ι Word C : Type} [DecidableEq C] {g : Geometry} {s : State ι Word C}
  {h : History ι Word C} {c : C} {reader : UInt64} {dst temp : Value ι Word}
  {result : Option (Bool × Value ι Word)}

omit [DecidableEq C] in
theorem exact_ended {p : Pop ι Word C} (hpops : ∀ p ∈ h.pops, p.Exact g) (hp : p.Exact g) :
    ∀ q ∈ (h.ended p).pops, q.Exact g := by
  intro q hq
  cases List.mem_append.mp hq with
  | inl hq => exact hpops q hq
  | inr hq => exact List.mem_singleton.mp hq ▸ hp

theorem loadFirst_exact (hinv : Inv g s h) (hab : s.aborted = none)
    (hc : s.consumers c = some ⟨reader, .loadFirst dst, result⟩)
    (hwrap : reader.toNat / g.bufferSize + 1 < 2 ^ 63)
    (hpops : ∀ p ∈ h.pops, p.Exact g) :
    ∀ p ∈ (observe s (.loadFirst c) (checkFirst g s c reader dst result) h).pops, p.Exact g := by
  obtain ⟨hlow, hhigh⟩ := hinv.check_iff hwrap
  have hpos := g.bufferSize_pos
  have hbegun := hinv.begun_le
  have hround : reader.toNat + g.bufferSize < h.begun → reader.toNat < h.finished := by omega
  obtain ⟨hgt, -, hh'⟩ | ⟨hlt, -, hh'⟩ | ⟨-, -, -, hh'⟩ :=
    loadFirst_cases (g := g) (h := h) hab hc
  · have hover := hhigh.mp hgt
    rw [hh']
    exact exact_ended hpops (.of_overrun rfl (hround hover) (.inl hover))
  · have hempty := hlow.mp hlt
    rw [hh']
    refine exact_ended hpops (.of_empty rfl hempty ?_ rfl)
    rintro (hover | ⟨hfirst, -⟩)
    · exact absurd (hround hover) (Nat.not_lt.mpr hempty)
    · exact absurd hfirst (Nat.not_lt.mpr hempty)
  · rw [hh']
    exact hpops

theorem loadSecond_exact [Fintype ι] (hinv : Inv g s h) (hab : s.aborted = none)
    (hc : s.consumers c = some ⟨reader, .copying dst temp Finset.univ, result⟩)
    (hwrap : reader.toNat / g.bufferSize + 1 < 2 ^ 63)
    (hpops : ∀ p ∈ h.pops, p.Exact g) :
    ∀ p ∈ (observe s (.loadSecond c) (checkSecond g s c reader temp) h).pops, p.Exact g := by
  obtain ⟨hlow, hhigh⟩ := hinv.check_iff hwrap
  obtain ⟨⟨hfirst, hbegun, hle⟩, -⟩ := (hinv.consumer c _ hc).copying dst temp _ rfl
  have hdone : ¬ h.finished ≤ reader.toNat := Nat.not_le.mpr (hfirst.trans_le hle)
  obtain ⟨hne, -, hh'⟩ | ⟨heq, -, hh'⟩ := loadSecond_cases (g := g) (h := h) hab hc
  · rw [hh']
    cases UInt64.lt_or_lt_of_ne hne with
    | inl hlt => exact absurd (hlow.mp hlt) hdone
    | inr hgt =>
      exact exact_ended hpops
        (.of_overrun rfl hfirst (.inr ⟨hfirst, h.now, rfl, hhigh.mp hgt⟩))
  · have hnot : ¬ reader.toNat + g.bufferSize < h.begun := by
      rw [← hhigh, heq]
      exact UInt64.lt_irrefl _
    rw [hh']
    refine exact_ended hpops (.of_returned rfl hfirst ?_)
    rintro (hover | ⟨-, second, hmem, hover⟩)
    · exact absurd hover (Nat.not_lt.mpr hbegun)
    · cases hmem
      exact hnot hover

variable [DecidableEq ι] [Fintype ι]

theorem step_exact {s' : State ι Word C} {a : Action ι Word C} (hinv : Inv g s h)
    (hstep : step g s a = .ok s')
    (hwrap : ∀ r ≤ h.finished, r / g.bufferSize + 1 < 2 ^ 63)
    (hpops : ∀ p ∈ h.pops, p.Exact g) : ∀ p ∈ (observe s a s' h).pops, p.Exact g := by
  obtain ⟨hab, hsteps⟩ := step_ok g hstep
  cases hsteps with
  | loadFirst hc =>
    exact loadFirst_exact hinv hab hc (hwrap _ (hinv.consumer _ _ hc).reader_le) hpops
  | loadSecond hc =>
    exact loadSecond_exact hinv hab hc (hwrap _ (hinv.consumer _ _ hc).reader_le) hpops
  | _ => exact hpops

end Step

/-! ## Runs -/

section Runs
variable {ι Word C : Type} [DecidableEq ι] [Fintype ι] [DecidableEq C] {g : Geometry}
  {s : State ι Word C} {h : History ι Word C} {data : ℕ → Value ι Word}
  {as : List (Action ι Word C)}

theorem expected_fits {n r : ℕ} (hfew : n < 2 ^ 63) (hone : g.bufferSize = 1 → n < 2 ^ 63 - 1)
    (hr : r ≤ n) : r / g.bufferSize + 1 < 2 ^ 63 := by
  have hpos := g.bufferSize_pos
  cases Nat.lt_or_ge g.bufferSize 2 with
  | inl hlt =>
    have hsize : g.bufferSize = 1 := by omega
    have := hone hsize
    rw [hsize, Nat.div_one]
    omega
  | inr hge =>
    have hdiv : r / g.bufferSize ≤ r / 2 := Nat.div_le_div_left hge (by decide)
    omega

/-- **Overrun and emptiness.** In every interleaving with fewer than `2 ^ 63` pushes, or `2 ^ 63 - 1`
with a single slot, every `pop` reports exactly what the producer had done. -/
theorem pops_exact (hrun : run (track g) (init data, .init) as = .ok (s, h))
    (hfew : h.pushed.length < 2 ^ 63) (hone : g.bufferSize = 1 → h.pushed.length < 2 ^ 63 - 1) :
    ∀ p ∈ h.pops, p.Exact g := by
  have hexact : Inv g s h ∧ ∀ p ∈ h.pops, p.Exact g := by
    refine run_invariant (fun sh : State ι Word C × History ι Word C =>
      sh.2.pushed.length < 2 ^ 63 → (g.bufferSize = 1 → sh.2.pushed.length < 2 ^ 63 - 1) →
      Inv g sh.1 sh.2 ∧ ∀ p ∈ sh.2.pops, p.Exact g) ?_ ?_ hrun hfew hone
    · exact fun _ _ => ⟨init_inv g data, fun p hp => by cases hp⟩
    · rintro ⟨t, k⟩ a ⟨u, k'⟩ ih htrack hfew' hone'
      obtain ⟨hstep, rfl⟩ := track_ok htrack
      have hmono := (observe_pushed t a u k).length_le
      have hfewt : k.pushed.length < 2 ^ 63 := lt_of_le_of_lt hmono hfew'
      have honet : g.bufferSize = 1 → k.pushed.length < 2 ^ 63 - 1 :=
        fun hN => lt_of_le_of_lt hmono (hone' hN)
      obtain ⟨hinv, hpops⟩ := ih hfewt honet
      have hle := hinv.finished_le.trans hinv.begun_le_pushed
      exact ⟨hinv.step hstep hfew', step_exact hinv hstep
        (fun r hr => expected_fits hfewt honet (hr.trans hle)) hpops⟩
  exact hexact.2

end Runs

theorem pops_exact_sample :
    ∃ (s : State Unit ℕ Bool) (h : History Unit ℕ Bool),
      run (track .twoSlots) (init fun _ _ => 0, .init)
        [.makeConsumer true, .makeConsumer false, .push (fun _ => 1), .loadWriter, .loadVersion,
          .storeOdd, .pop true (fun _ => 0), .loadFirst true, .writeWord (), .storeEven,
          .pop false (fun _ => 0), .loadFirst false, .copyWord false (), .loadSecond false] =
        .ok (s, h) ∧ h.pops.length = 2 ∧ ∀ p ∈ h.pops, p.Exact .twoSlots := by
  obtain ⟨s, h, hrun, hpushed, hpops⟩ : ∃ (s : State Unit ℕ Bool) (h : History Unit ℕ Bool),
      run (track .twoSlots) (init fun _ _ => 0, .init)
        [.makeConsumer true, .makeConsumer false, .push (fun _ => 1), .loadWriter, .loadVersion,
          .storeOdd, .pop true (fun _ => 0), .loadFirst true, .writeWord (), .storeEven,
          .pop false (fun _ => 0), .loadFirst false, .copyWord false (), .loadSecond false] =
        .ok (s, h) ∧ h.pushed.length = 1 ∧ h.pops.length = 2 := ⟨_, _, rfl, rfl, rfl⟩
  exact ⟨s, h, hrun, hpops, pops_exact hrun (by omega) (by omega)⟩

/-! ## The expected version wraps around -/

section Wraps

/-- A ring of one slot of 8 MB. -/
def Geometry.oneSlot : Geometry := ⟨8388608, 0, by decide, by decide⟩

/-- The actions of one push. -/
def onePush (val : Value Unit ℕ) : List (Action Unit ℕ Unit) :=
  [.push val, .loadWriter, .loadVersion, .storeOdd, .writeWord (), .storeEven, .storeWriter]

variable {g : Geometry} {s : State Unit ℕ Unit} {h : History Unit ℕ Unit}

/-- The producer is between two pushes, and nobody else has done anything. -/
structure Resting (s : State Unit ℕ Unit) : Prop where
  aborted : s.aborted = none
  producer : s.producer = .idle
  consumers : s.consumers () = none

theorem run_onePush (hs : Resting s) (val : Value Unit ℕ) :
    ∃ s' h', run (track g) (s, h) (onePush val) = .ok (s', h') ∧ Resting s' ∧
      h'.pushed.length = h.pushed.length + 1 := by
  obtain ⟨writer, buffer, producer, consumers, aborted⟩ := s
  obtain ⟨haborted, hproducer, hconsumers⟩ := hs
  dsimp only at haborted hproducer hconsumers
  subst haborted hproducer
  exact ⟨_, _, rfl, ⟨rfl, rfl, hconsumers⟩, List.length_append⟩

theorem run_pushes (hs : Resting s) (val : Value Unit ℕ) (n : ℕ) :
    ∃ s' h', run (track g) (s, h) (List.replicate n (onePush val)).flatten = .ok (s', h') ∧
      Resting s' ∧ h'.pushed.length = h.pushed.length + n := by
  induction n generalizing s h with
  | zero => exact ⟨s, h, rfl, hs, rfl⟩
  | succ n ih =>
    obtain ⟨s₁, h₁, hrun₁, hs₁, hlen₁⟩ := run_onePush (g := g) (h := h) hs val
    obtain ⟨s₂, h₂, hrun₂, hs₂, hlen₂⟩ := ih (h := h₁) hs₁
    refine ⟨s₂, h₂, ?_, hs₂, by omega⟩
    rw [List.replicate_succ, List.flatten_cons, run_append_of_ok hrun₁]
    exact hrun₂

/-- A consumer created between two pushes is about to ask for the next one. -/
theorem run_newcomer (hs : Resting s) (dst : Value Unit ℕ) :
    ∃ s' h', run (track g) (s, h) [.makeConsumer (), .pop () dst] = .ok (s', h') ∧
      s'.aborted = none ∧ s'.consumers () = some ⟨s.writer, .loadFirst dst, none⟩ ∧
      h'.pushed = h.pushed := by
  have hmake : track g (s, h) (.makeConsumer ()) =
      .ok (setConsumer s () ⟨s.writer, .idle, none⟩,
        { h with start := Function.update h.start () s.writer.toNat }) := by
    simp [track, step, consumerStep, observe, hs.aborted, hs.consumers]
  have hpop : ∀ h₁, track g (setConsumer s () ⟨s.writer, .idle, none⟩, h₁) (.pop () dst) =
      .ok (setConsumer s () ⟨s.writer, .loadFirst dst, none⟩, h₁) := by
    simp [track, step, consumerStep, observe, setConsumer, hs.aborted]
  refine ⟨setConsumer s () ⟨s.writer, .loadFirst dst, none⟩,
    { h with start := Function.update h.start () s.writer.toNat }, ?_, hs.aborted,
    by simp [setConsumer], rfl⟩
  rw [run, List.foldlM_cons, hmake]
  exact (run_concat (run_nil _) _).trans (hpop _)

/-- After `2 ^ 63 - 1` pushes into a single slot, a new consumer is told that it was overrun, though
the push it asks for has not begun. -/
theorem last_push_not_exact :
    ∃ (s : State Unit ℕ Unit) (h : History Unit ℕ Unit),
      run (track .oneSlot) (init fun _ _ => 0, .init)
        ((List.replicate (2 ^ 63 - 1) (onePush fun _ => 0)).flatten ++
          [.makeConsumer (), .pop () (fun _ => 0)] ++ [.loadFirst ()]) = .ok (s, h) ∧
      h.pushed.length < 2 ^ 63 ∧ ¬ ∀ p ∈ h.pops, p.Exact .oneSlot := by
  generalize hn : 2 ^ 63 - 1 = n
  obtain ⟨s, h, hpushes, hs, hlen⟩ := run_pushes (g := .oneSlot) (h := .init)
    (s := init fun _ _ => 0) ⟨rfl, rfl, rfl⟩ (fun _ => 0) n
  obtain ⟨t, k, hnew, hab, hc, hpushed⟩ := run_newcomer (g := .oneSlot) (h := h) hs (fun _ => 0)
  have hlen : h.pushed.length = n := hlen.trans (Nat.zero_add n)
  have hwriter : s.writer.toNat = n := by
    have hprod := (run_inv hpushes (by omega)).producer
    rw [ProducerOk, hs.producer] at hprod
    omega
  have hrun : run (track .oneSlot) (init fun _ _ => 0, .init)
      ((List.replicate n (onePush fun _ => 0)).flatten ++ [.makeConsumer (), .pop () fun _ => 0]) =
      .ok (t, k) := by
    exact (run_append_of_ok hpushes _).trans hnew
  have hfew : k.pushed.length < 2 ^ 63 := by rw [hpushed]; omega
  have hinv := run_inv hrun hfew
  have hwrap : 2 ^ 63 ≤ s.writer.toNat / Geometry.oneSlot.bufferSize + 1 := by
    have hsize : Geometry.oneSlot.bufferSize = 1 := rfl
    rw [hsize, Nat.div_one]
    omega
  have hgt := hinv.check_wrap (hinv.consumer () _ hc).reader_le hfew hwrap
  have hload : track .oneSlot (t, k) (.loadFirst ()) =
      .ok (checkFirst .oneSlot t () s.writer (fun _ => 0) none,
        observe t (.loadFirst ()) (checkFirst .oneSlot t () s.writer (fun _ => 0) none) k) := by
    simp [track, step, consumerStep, hab, hc]
  obtain ⟨-, -, hk⟩ | ⟨hlt, -⟩ | ⟨hle, -⟩ := loadFirst_cases (g := .oneSlot) (h := k) hab hc
  · refine ⟨_, _, (run_concat hrun _).trans hload, ?_, fun hexact => ?_⟩
    · rw [hk]
      exact hfew
    · rw [hk] at hexact
      have hover := (hexact _ (List.mem_append_right _ (List.mem_singleton.mpr rfl))).overrun.mp rfl
      rcases hover with hbegun | ⟨-, _, hsecond, -⟩
      · have hle := hinv.begun_le_pushed
        rw [hpushed] at hle
        have hfirst : s.writer.toNat + Geometry.oneSlot.bufferSize < k.begun := hbegun
        omega
      · cases hsecond
  · exact absurd hlt (UInt64.lt_asymm hgt)
  · exact absurd hgt hle

end Wraps

end ItchIngestion.SPMC
