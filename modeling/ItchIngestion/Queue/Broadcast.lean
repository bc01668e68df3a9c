import ItchIngestion.Queue.SPMCQueue

/-! # Every consumer receives every push, in order

`Inv` ties a state to its history: the version of a slot is the number of pushes that have begun on
it plus the number that have finished, the data of a slot is the last push finished on it unless the
next one has begun, and what a consumer copied so far belongs to the push it asks for unless that
was overrun. A consumer compares versions, and by `version_lt_iff` and `lt_version_iff` it thereby
compares its read index with the pushes finished and begun.

Each action keeps the invariant; the producer's actions do not touch what is said about consumers,
except that more pushes have begun and finished (`ConsumerOk.extends`).
-/
namespace ItchIngestion.SPMC
open Library
set_option autoImplicit false

/-! ## Indices and versions -/

namespace Geometry
variable (g : Geometry)

theorem bufferSize_eq : g.bufferSize = 2 ^ g.shift := g.popcount

theorem bufferSize_pos : 0 < g.bufferSize := by
  rw [g.bufferSize_eq]
  exact Nat.two_pow_pos g.shift

theorem shift_lt : g.shift < 24 := by
  have hle : 2 ^ g.shift ≤ 8 * 1024 * 1024 := g.popcount ▸ Nat.div_le_self _ _
  have hlt : 2 ^ g.shift < 2 ^ 24 := lt_of_le_of_lt hle (by decide)
  exact (Nat.pow_lt_pow_iff_right (by decide)).mp hlt

theorem slotIndex_eq (position : UInt64) : g.slotIndex position = position.toNat % g.bufferSize := by
  have hpos := g.bufferSize_pos
  have hpow : 2 ^ g.shift < 2 ^ 24 := Nat.pow_lt_pow_right (by decide) g.shift_lt
  have hsize := g.bufferSize_eq
  have hlt : g.bufferSize < 2 ^ 64 := by omega
  have hnat : (UInt64.ofNat g.bufferSize).toNat = g.bufferSize := UInt64.toNat_ofNat_of_lt' hlt
  have hone : (1 : UInt64) ≤ UInt64.ofNat g.bufferSize := by
    rw [UInt64.le_iff_toNat_le, hnat]
    exact hpos
  have hmask : g.wrapMask.toNat = 2 ^ g.shift - 1 := by
    rw [wrapMask, UInt64.toNat_sub_of_le _ _ hone, hnat, hsize]
    rfl
  rw [slotIndex, UInt64.toNat_and, hmask, Nat.and_two_pow_sub_one_eq_mod, hsize]

theorem slotIndex_lt (position : UInt64) : g.slotIndex position < g.bufferSize := by
  rw [slotIndex_eq]
  exact Nat.mod_lt _ g.bufferSize_pos

theorem expectedVersion_toNat (reader : UInt64) :
    (g.expectedVersion reader).toNat = 2 * (reader.toNat / g.bufferSize + 1) % 2 ^ 64 := by
  have hshift := g.shift_lt
  have hlt : g.shift < 2 ^ 64 := by omega
  have hnat : (UInt64.ofNat g.shift).toNat = g.shift := UInt64.toNat_ofNat_of_lt' hlt
  have hgen : (reader >>> UInt64.ofNat g.shift).toNat = reader.toNat / g.bufferSize := by
    rw [UInt64.toNat_shiftRight, hnat, Nat.mod_eq_of_lt (by omega), Nat.shiftRight_eq_div_pow,
      g.bufferSize_eq]
  rw [expectedVersion, UInt64.toNat_mul, UInt64.toNat_add, hgen]
  have htwo : (2 : UInt64).toNat = 2 := rfl
  have hone : (1 : UInt64).toNat = 1 := rfl
  rw [htwo, hone]
  omega

end Geometry

section Versions
variable {N : ℕ} (hN : 0 < N) {finished begun : ℕ} (hle : finished ≤ begun)
  (hbegun : begun ≤ finished + 1) (r : ℕ)
include hN hle hbegun

theorem version_lt_iff : visits N begun (r % N) + visits N finished (r % N) < 2 * (r / N + 1) ↔
    finished ≤ r := by
  have hb := visits_le_succ (N := N) (r % N) hbegun
  have hf := lt_iff_visits hN r finished
  have hmono : visits N finished (r % N) ≤ visits N begun (r % N) := visits_mono _ hle
  omega

theorem lt_version_iff : 2 * (r / N + 1) < visits N begun (r % N) + visits N finished (r % N) ↔
    r + N < begun := by
  have hb := visits_le_succ (N := N) (r % N) hbegun
  have hnext := add_lt_iff_visits hN r begun
  have hf := lt_iff_visits hN r finished
  have hmono : visits N finished (r % N) ≤ visits N begun (r % N) := visits_mono _ hle
  omega

end Versions

/-! ## The invariant -/

section Invariant
variable {ι Word C : Type} [DecidableEq C] (g : Geometry)

/-- Where the producer is, against the pushes noted. Push number `finished` is the one under way. -/
def ProducerOk (s : State ι Word C) (h : History ι Word C) : Prop :=
  match s.producer with
  | .idle => h.pushed.length = h.finished ∧ h.begun = h.finished ∧ s.writer.toNat = h.finished
  | .loadWriter val => h.pushed.length = h.finished + 1 ∧ h.pushed[h.finished]? = some val ∧
      h.begun = h.finished ∧ s.writer.toNat = h.finished
  | .loadVersion val w => h.pushed.length = h.finished + 1 ∧ h.pushed[h.finished]? = some val ∧
      h.begun = h.finished ∧ s.writer.toNat = h.finished ∧ w.toNat = h.finished
  | .storeOdd val w slotVer => h.pushed.length = h.finished + 1 ∧
      h.pushed[h.finished]? = some val ∧ h.begun = h.finished ∧ s.writer.toNat = h.finished ∧
      w.toNat = h.finished ∧ slotVer = (s.buffer (g.slotIndex w)).version
  | .writing val w slotVer written => h.pushed.length = h.finished + 1 ∧
      h.pushed[h.finished]? = some val ∧ h.begun = h.finished + 1 ∧ s.writer.toNat = h.finished ∧
      w.toNat = h.finished ∧ slotVer + 1 = (s.buffer (g.slotIndex w)).version ∧
      ∀ i ∈ written, (s.buffer (g.slotIndex w)).data i = val i
  | .storeWriter w => h.pushed.length = h.finished ∧ h.begun = h.finished ∧
      s.writer.toNat + 1 = h.finished ∧ w = s.writer

/-- The pushes a consumer has received, and the one it may be copying. -/
structure ConsumerOk (h : History ι Word C) (c : C) (k : Consumer ι Word) : Prop where
  reader : k.reader.toNat = h.start c + (h.received c).length
  received : h.received c <+: h.pushed.drop (h.start c)
  reader_le : k.reader.toNat ≤ h.finished
  copying : ∀ dst temp copied, k.pop = .copying dst temp copied →
    (k.reader.toNat < (h.first c).finished ∧ (h.first c).begun ≤ k.reader.toNat + g.bufferSize ∧
      (h.first c).finished ≤ h.finished) ∧
    (h.begun ≤ k.reader.toNat + g.bufferSize → ∀ v, h.pushed[k.reader.toNat]? = some v →
      ∀ i ∈ copied, temp i = v i)

/-- The counters and versions tell how many pushes have begun and finished, and every party knows its
place. -/
structure Inv (s : State ι Word C) (h : History ι Word C) : Prop where
  finished_le : h.finished ≤ h.begun
  begun_le : h.begun ≤ h.finished + 1
  begun_le_pushed : h.begun ≤ h.pushed.length
  writer_le : s.writer.toNat ≤ h.finished
  producer : ProducerOk g s h
  version : ∀ i < g.bufferSize, (s.buffer i).version.toNat =
    visits g.bufferSize h.begun i + visits g.bufferSize h.finished i
  data : ∀ m v, h.pushed[m]? = some v → m < h.finished → h.begun ≤ m + g.bufferSize →
    (s.buffer (m % g.bufferSize)).data = v
  consumer : ∀ c k, s.consumers c = some k → ConsumerOk g h c k
  fresh : ∀ c, s.consumers c = none → h.received c = []

theorem init_inv (data : ℕ → Value ι Word) : Inv g (init data) (.init : History ι Word C) where
  finished_le := le_refl _
  begun_le := Nat.zero_le _
  begun_le_pushed := le_refl _
  writer_le := le_refl _
  producer := ⟨rfl, rfl, rfl⟩
  version i _ := by
    show (0 : UInt64).toNat = visits g.bufferSize 0 i + visits g.bufferSize 0 i
    rw [visits_zero]
    rfl
  data m v _ hm := by cases hm
  consumer c k hk := by cases hk
  fresh c _ := rfl

end Invariant

/-! ## Histories that go on -/

section Extends
variable {ι Word C : Type} [DecidableEq C] {g : Geometry}

/-- More pushes, and the consumers as they were. -/
structure Extends (h h' : History ι Word C) : Prop where
  pushed : h.pushed <+: h'.pushed
  begun : h.begun ≤ h'.begun
  finished : h.finished ≤ h'.finished
  start : h'.start = h.start
  first : h'.first = h.first
  pops : h'.pops = h.pops

theorem Extends.received {h h' : History ι Word C} (he : Extends h h') (c : C) :
    h'.received c = h.received c := by
  unfold History.received
  rw [he.pops]

theorem ConsumerOk.extends {h h' : History ι Word C} (he : Extends h h')
    (hlen : h.finished ≤ h.pushed.length) {c : C} {k : Consumer ι Word}
    (hk : ConsumerOk g h c k) : ConsumerOk g h' c k where
  reader := by rw [he.received, he.start, hk.reader]
  received := by
    rw [he.received, he.start]
    obtain ⟨more, hmore⟩ := he.pushed
    have hstart : h.start c ≤ h.pushed.length := by
      have := hk.reader
      have := hk.reader_le
      omega
    rw [← hmore, List.drop_append_of_le_length hstart]
    exact hk.received.trans (List.prefix_append _ _)
  reader_le := hk.reader_le.trans he.finished
  copying dst temp copied hpop := by
    obtain ⟨⟨hfin, hbeg, hfirst⟩, hcopied⟩ := hk.copying dst temp copied hpop
    rw [he.first]
    refine ⟨⟨hfin, hbeg, hfirst.trans he.finished⟩, fun hle v hv => ?_⟩
    obtain ⟨more, hmore⟩ := he.pushed
    rw [← hmore, List.getElem?_append_left (by omega)] at hv
    exact hcopied (he.begun.trans hle) v hv

end Extends

/-! ## The actions of the producer -/

section Buffer
variable {ι Word C : Type} (s : State ι Word C)

theorem setVersion_data (i j : ℕ) (v : UInt64) : (setVersion s i v j).data = (s.buffer j).data := by
  unfold setVersion
  by_cases hj : j = i
  · subst hj
    rw [Function.update_self]
  · rw [Function.update_of_ne hj]

theorem setVersion_version (i j : ℕ) (v : UInt64) :
    (setVersion s i v j).version = if j = i then v else (s.buffer j).version := by
  unfold setVersion
  split
  · rename_i hj
    subst hj
    rw [Function.update_self]
  · rename_i hj
    rw [Function.update_of_ne hj]

variable [DecidableEq ι]

theorem setWord_version (k j : ℕ) (i : ι) (x : Word) :
    (setWord s k i x j).version = (s.buffer j).version := by
  unfold setWord
  by_cases hj : j = k
  · subst hj
    rw [Function.update_self]
  · rw [Function.update_of_ne hj]

theorem setWord_data (k j : ℕ) (i : ι) (x : Word) : (setWord s k i x j).data =
    if j = k then Function.update (s.buffer k).data i x else (s.buffer j).data := by
  unfold setWord
  split
  · rename_i hj
    subst hj
    rw [Function.update_self]
  · rename_i hj
    rw [Function.update_of_ne hj]

end Buffer

section Producer
variable {ι Word C : Type} [DecidableEq C] {g : Geometry} {s : State ι Word C}
  {h : History ι Word C}

/-- An action of the producer says nothing new about the consumers. -/
theorem Inv.produce (hinv : Inv g s h) (s' : State ι Word C) (h' : History ι Word C)
    (hcons : s'.consumers = s.consumers) (he : Extends h h') :
    (∀ c k, s'.consumers c = some k → ConsumerOk g h' c k) ∧
      ∀ c, s'.consumers c = none → h'.received c = [] := by
  have hlen : h.finished ≤ h.pushed.length := hinv.finished_le.trans hinv.begun_le_pushed
  rw [hcons]
  exact ⟨fun c k hk => (hinv.consumer c k hk).extends he hlen,
    fun c hc => by rw [he.received, hinv.fresh c hc]⟩

/-- The producer goes on to its next load or store, and nothing else moves. -/
theorem Inv.goOn (hinv : Inv g s h) (p : Producer ι Word)
    (hprod : ProducerOk g { s with producer := p } h) : Inv g { s with producer := p } h :=
  ⟨hinv.finished_le, hinv.begun_le, hinv.begun_le_pushed, hinv.writer_le, hprod, hinv.version,
    hinv.data, hinv.consumer, hinv.fresh⟩

theorem Inv.push (hinv : Inv g s h) {val : Value ι Word} (hp : s.producer = .idle) :
    Inv g { s with producer := .loadWriter val } { h with pushed := h.pushed ++ [val] } := by
  have hprod := hinv.producer
  rw [ProducerOk, hp] at hprod
  obtain ⟨hlen, hbegun, hwriter⟩ := hprod
  obtain ⟨hconsumer, hfresh⟩ := hinv.produce { s with producer := .loadWriter val }
    { h with pushed := h.pushed ++ [val] } rfl
    ⟨List.prefix_append _ _, le_refl _, le_refl _, rfl, rfl, rfl⟩
  refine ⟨hinv.finished_le, hinv.begun_le, ?_, hinv.writer_le, ?_, hinv.version, ?_, hconsumer,
    hfresh⟩
  · show h.begun ≤ (h.pushed ++ [val]).length
    rw [List.length_append]
    exact hinv.begun_le_pushed.trans (Nat.le_add_right _ _)
  · refine ⟨?_, ?_, hbegun, hwriter⟩
    · show (h.pushed ++ [val]).length = h.finished + 1
      rw [List.length_append, hlen, List.length_singleton]
    · show (h.pushed ++ [val])[h.finished]? = some val
      rw [← hlen, List.getElem?_concat_length]
  · intro m v hv hm hround
    have hlt : m < h.pushed.length := by
      rw [hlen]
      exact hm
    exact hinv.data m v (by rwa [← List.getElem?_append_left hlt]) hm hround

theorem Inv.loadWriter (hinv : Inv g s h) {val : Value ι Word}
    (hp : s.producer = .loadWriter val) :
    Inv g { s with producer := .loadVersion val s.writer } h := by
  have hprod := hinv.producer
  rw [ProducerOk, hp] at hprod
  obtain ⟨hlen, hval, hbegun, hwriter⟩ := hprod
  exact hinv.goOn _ ⟨hlen, hval, hbegun, hwriter, hwriter⟩

theorem Inv.loadVersion (hinv : Inv g s h) {val : Value ι Word} {w : UInt64}
    (hp : s.producer = .loadVersion val w) :
    Inv g { s with producer := .storeOdd val w (s.buffer (g.slotIndex w)).version } h := by
  have hprod := hinv.producer
  rw [ProducerOk, hp] at hprod
  obtain ⟨hlen, hval, hbegun, hwriter, hw⟩ := hprod
  exact hinv.goOn _ ⟨hlen, hval, hbegun, hwriter, hw, rfl⟩

/-- A store to the version of a slot that counts one more push of the slot. -/
theorem Inv.version_succ (hinv : Inv g s h) (hfew : h.pushed.length < 2 ^ 63) {w : UInt64} {i : ℕ}
    (hi : i < g.bufferSize) : (setVersion s (g.slotIndex w)
        ((s.buffer (g.slotIndex w)).version + 1) i).version.toNat =
      (s.buffer i).version.toNat + if w.toNat % g.bufferSize = i then 1 else 0 := by
  rw [setVersion_version, g.slotIndex_eq]
  by_cases hw : w.toNat % g.bufferSize = i
  · have hversion := hinv.version i hi
    have hb := @visits_le g.bufferSize h.begun i
    have hf := @visits_le g.bufferSize h.finished i
    have hone : (1 : UInt64).toNat = 1 := rfl
    have := hinv.finished_le
    have := hinv.begun_le_pushed
    rw [if_pos hw.symm, if_pos hw, hw, UInt64.toNat_add, hone]
    omega
  · rw [if_neg (Ne.symm hw), if_neg hw, Nat.add_zero]

theorem Inv.storeOdd (hinv : Inv g s h) (hfew : h.pushed.length < 2 ^ 63) {val : Value ι Word}
    {w slotVer : UInt64} (hp : s.producer = .storeOdd val w slotVer) :
    Inv g { s with
      buffer := setVersion s (g.slotIndex w) (slotVer + 1), producer := .writing val w slotVer ∅ }
      { h with begun := h.begun + 1 } := by
  have hprod := hinv.producer
  rw [ProducerOk, hp] at hprod
  obtain ⟨hlen, hval, hbegun, hwriter, hw, rfl⟩ := hprod
  obtain ⟨hconsumer, hfresh⟩ := hinv.produce { s with
      buffer := setVersion s (g.slotIndex w) ((s.buffer (g.slotIndex w)).version + 1)
      producer := .writing val w (s.buffer (g.slotIndex w)).version ∅ }
    { h with begun := h.begun + 1 } rfl
    ⟨List.prefix_refl _, Nat.le_succ _, le_refl _, rfl, rfl, rfl⟩
  refine ⟨hinv.finished_le.trans (Nat.le_succ _), ?_, ?_, hinv.writer_le, ?_, ?_, ?_, hconsumer,
    hfresh⟩
  · show h.begun + 1 ≤ h.finished + 1
    omega
  · show h.begun + 1 ≤ h.pushed.length
    omega
  · refine ⟨hlen, hval, ?_, hwriter, hw, ?_, by simp⟩
    · show h.begun + 1 = h.finished + 1
      omega
    · show _ = (setVersion s (g.slotIndex w) _ (g.slotIndex w)).version
      rw [setVersion_version, if_pos rfl]
  · intro i hi
    show (setVersion s (g.slotIndex w) _ i).version.toNat =
      visits g.bufferSize (h.begun + 1) i + visits g.bufferSize h.finished i
    rw [hinv.version_succ hfew hi, hinv.version i hi, visits_succ, hw, hbegun]
    omega
  · intro m v hv hm hround
    show (setVersion s (g.slotIndex w) _ (m % g.bufferSize)).data = v
    rw [setVersion_data]
    exact hinv.data m v hv hm ((Nat.le_succ _).trans hround)

theorem Inv.writeWord [DecidableEq ι] (hinv : Inv g s h) {val : Value ι Word} {w slotVer : UInt64}
    {written : Finset ι} {i : ι} (hp : s.producer = .writing val w slotVer written) :
    Inv g { s with
      buffer := setWord s (g.slotIndex w) i (val i)
      producer := .writing val w slotVer (insert i written) } h := by
  have hprod := hinv.producer
  rw [ProducerOk, hp] at hprod
  obtain ⟨hlen, hval, hbegun, hwriter, hw, hver, hwritten⟩ := hprod
  refine ⟨hinv.finished_le, hinv.begun_le, hinv.begun_le_pushed, hinv.writer_le, ?_, ?_, ?_,
    hinv.consumer, hinv.fresh⟩
  · refine ⟨hlen, hval, hbegun, hwriter, hw, ?_, fun j hj => ?_⟩
    · show _ = (setWord s (g.slotIndex w) i (val i) (g.slotIndex w)).version
      rw [setWord_version, hver]
    · show (setWord s (g.slotIndex w) i (val i) (g.slotIndex w)).data j = val j
      rw [setWord_data, if_pos rfl]
      by_cases hji : j = i
      · subst hji
        rw [Function.update_self]
      · rw [Function.update_of_ne hji]
        exact hwritten j (Finset.mem_of_mem_insert_of_ne hj hji)
  · intro j hj
    show (setWord s (g.slotIndex w) i (val i) j).version.toNat = _
    rw [setWord_version, hinv.version j hj]
  · intro m v hv hm hround
    have hne : m % g.bufferSize ≠ g.slotIndex w := by
      rw [g.slotIndex_eq, hw]
      exact mod_ne_of_lt hm (by omega)
    show (setWord s (g.slotIndex w) i (val i) (m % g.bufferSize)).data = v
    rw [setWord_data, if_neg hne]
    exact hinv.data m v hv hm hround

theorem Inv.storeEven [Fintype ι] (hinv : Inv g s h) (hfew : h.pushed.length < 2 ^ 63)
    {val : Value ι Word} {w slotVer : UInt64}
    (hp : s.producer = .writing val w slotVer Finset.univ) :
    Inv g { s with
      buffer := setVersion s (g.slotIndex w) (slotVer + 2), producer := .storeWriter w }
      { h with finished := h.finished + 1 } := by
  have hprod := hinv.producer
  rw [ProducerOk, hp] at hprod
  obtain ⟨hlen, hval, hbegun, hwriter, hw, hver, hwritten⟩ := hprod
  have hstore : slotVer + 2 = (s.buffer (g.slotIndex w)).version + 1 := by
    rw [← hver, UInt64.add_assoc]
    rfl
  rw [hstore]
  obtain ⟨hconsumer, hfresh⟩ := hinv.produce { s with
      buffer := setVersion s (g.slotIndex w) ((s.buffer (g.slotIndex w)).version + 1)
      producer := .storeWriter w }
    { h with finished := h.finished + 1 } rfl
    ⟨List.prefix_refl _, le_refl _, Nat.le_succ _, rfl, rfl, rfl⟩
  refine ⟨?_, ?_, hinv.begun_le_pushed, hinv.writer_le.trans (Nat.le_succ _), ?_, ?_, ?_, hconsumer,
    hfresh⟩
  · show h.finished + 1 ≤ h.begun
    omega
  · show h.begun ≤ h.finished + 1 + 1
    omega
  · exact ⟨hlen, hbegun, by show s.writer.toNat + 1 = h.finished + 1; omega,
      UInt64.toNat_inj.mp (hw.trans hwriter.symm)⟩
  · intro i hi
    show (setVersion s (g.slotIndex w) _ i).version.toNat =
      visits g.bufferSize h.begun i + visits g.bufferSize (h.finished + 1) i
    rw [hinv.version_succ hfew hi, hinv.version i hi, visits_succ, hw]
    omega
  · intro m v hv hm hround
    show (setVersion s (g.slotIndex w) _ (m % g.bufferSize)).data = v
    rw [setVersion_data]
    cases Nat.lt_or_ge m h.finished with
    | inl hlt => exact hinv.data m v hv hlt hround
    | inr hge =>
      obtain rfl : m = h.finished := Nat.le_antisymm (Nat.le_of_lt_succ hm) hge
      obtain rfl : val = v := Option.some.inj (hval.symm.trans hv)
      funext i
      rw [← hw, ← g.slotIndex_eq]
      exact hwritten i (Finset.mem_univ i)

theorem Inv.storeWriter (hinv : Inv g s h) (hfew : h.pushed.length < 2 ^ 63) {w : UInt64}
    (hp : s.producer = .storeWriter w) :
    Inv g { s with writer := w + 1, producer := .idle } h := by
  have hprod := hinv.producer
  rw [ProducerOk, hp] at hprod
  obtain ⟨hlen, hbegun, hwriter, rfl⟩ := hprod
  have hone : (1 : UInt64).toNat = 1 := rfl
  have hnext : (s.writer + 1).toNat = h.finished := by
    rw [UInt64.toNat_add, hone]
    omega
  exact ⟨hinv.finished_le, hinv.begun_le, hinv.begun_le_pushed, le_of_eq hnext,
    ⟨hlen, hbegun, hnext⟩, hinv.version, hinv.data, hinv.consumer, hinv.fresh⟩

end Producer

/-! ## What a consumer learns from a version -/

section Check
variable {ι Word C : Type} [DecidableEq C] {g : Geometry} {s : State ι Word C}
  {h : History ι Word C} (hinv : Inv g s h) {reader : UInt64} (hr : reader.toNat ≤ h.finished)
include hinv

theorem Inv.slot_version (reader : UInt64) : (s.buffer (g.slotIndex reader)).version.toNat =
    visits g.bufferSize h.begun (reader.toNat % g.bufferSize) +
      visits g.bufferSize h.finished (reader.toNat % g.bufferSize) := by
  rw [hinv.version _ (g.slotIndex_lt reader), g.slotIndex_eq]

/-- Without wrap-around the two tests of a version are tests of the pushes. -/
theorem Inv.check_iff (hwrap : reader.toNat / g.bufferSize + 1 < 2 ^ 63) :
    ((s.buffer (g.slotIndex reader)).version < g.expectedVersion reader ↔
      h.finished ≤ reader.toNat) ∧
    (g.expectedVersion reader < (s.buffer (g.slotIndex reader)).version ↔
      reader.toNat + g.bufferSize < h.begun) := by
  have hexpected : (g.expectedVersion reader).toNat = 2 * (reader.toNat / g.bufferSize + 1) := by
    rw [g.expectedVersion_toNat]
    omega
  rw [UInt64.lt_iff_toNat_lt, UInt64.lt_iff_toNat_lt, hexpected, hinv.slot_version]
  exact ⟨version_lt_iff g.bufferSize_pos hinv.finished_le hinv.begun_le _,
    lt_version_iff g.bufferSize_pos hinv.finished_le hinv.begun_le _⟩

include hr

/-- The expected version wraps around to zero once at most, and then it is too low. -/
theorem Inv.check_wrap (hfew : h.pushed.length < 2 ^ 63)
    (hwrap : 2 ^ 63 ≤ reader.toNat / g.bufferSize + 1) :
    g.expectedVersion reader < (s.buffer (g.slotIndex reader)).version := by
  have hle : reader.toNat / g.bufferSize ≤ reader.toNat := Nat.div_le_self _ _
  have hdiv : reader.toNat / g.bufferSize ≤ h.finished / g.bufferSize := Nat.div_le_div_right hr
  have := hinv.finished_le
  have := hinv.begun_le_pushed
  rw [UInt64.lt_iff_toNat_lt, g.expectedVersion_toNat, hinv.slot_version,
    visits_mod g.bufferSize_pos h.finished]
  omega

/-- A version that passes both tests is that of the push asked for. -/
theorem Inv.check_passed (hfew : h.pushed.length < 2 ^ 63)
    (hgt : ¬ g.expectedVersion reader < (s.buffer (g.slotIndex reader)).version)
    (hlt : ¬ (s.buffer (g.slotIndex reader)).version < g.expectedVersion reader) :
    reader.toNat < h.finished ∧ h.begun ≤ reader.toNat + g.bufferSize := by
  cases Nat.lt_or_ge (reader.toNat / g.bufferSize + 1) (2 ^ 63) with
  | inl hwrap =>
    obtain ⟨hlow, hhigh⟩ := hinv.check_iff hwrap
    exact ⟨Nat.lt_of_not_le (mt hlow.mpr hlt), Nat.le_of_not_lt (mt hhigh.mpr hgt)⟩
  | inr hwrap => exact absurd (hinv.check_wrap hr hfew hwrap) hgt

end Check

/-! ## What the observer notes of a `pop` -/

section Noted
variable {ι Word C : Type} [DecidableEq C] {h : History ι Word C} {p : Pop ι Word C}

theorem received_ended_other (hp : p.outcome ≠ .returned) (d : C) :
    (h.ended p).received d = h.received d := by
  unfold History.received History.ended
  rw [List.filterMap_append]
  obtain ⟨c, reader, dst, first, second, outcome, after⟩ := p
  cases outcome with
  | empty => simp
  | overrun => simp
  | returned => exact absurd rfl hp

theorem received_ended {x : UInt64} {v : Value ι Word} (hp : p.outcome = .returned)
    (hafter : p.after = some (x, v)) (d : C) : (h.ended p).received d =
      if p.consumer = d then h.received d ++ [v] else h.received d := by
  obtain ⟨c, reader, dst, first, second, outcome, after⟩ := p
  dsimp only at hp hafter ⊢
  subst hp hafter
  unfold History.received History.ended
  rw [List.filterMap_append]
  split
  · rename_i hc
    simp [hc]
  · rename_i hc
    simp [hc]

theorem received_ended_ne {d : C} (hd : d ≠ p.consumer) :
    (h.ended p).received d = h.received d := by
  obtain ⟨c, reader, dst, first, second, outcome, after⟩ := p
  have hc : c ≠ d := Ne.symm hd
  unfold History.received History.ended
  rw [List.filterMap_append]
  cases outcome <;> cases after <;> simp [hc]

end Noted

/-! ## The two loads of a `pop` -/

section Loads
variable {ι Word C : Type} [DecidableEq C] {g : Geometry} {s : State ι Word C}
  {h : History ι Word C} {c : C} {reader : UInt64} {dst temp : Value ι Word}
  {result : Option (Bool × Value ι Word)}

omit [DecidableEq C] in
theorem note_aborted {s' : State ι Word C} {e : String} (he : s'.aborted = some e)
    (second : Option Snapshot) : h.note c reader dst second s' =
      h.ended ⟨c, reader, dst, h.first c, second, .overrun, none⟩ := by
  simp only [History.note, outcomeOf, he]

theorem note_idle (hab : s.aborted = none) (second : Option Snapshot) (x : UInt64)
    (ret : Bool) (v : Value ι Word) :
    h.note c reader dst second (setConsumer s c ⟨x, .idle, some (ret, v)⟩) =
      h.ended ⟨c, reader, dst, h.first c, second, if ret then .returned else .empty, some (x, v)⟩ := by
  simp only [History.note, outcomeOf, setConsumer, hab, Function.update_self]

theorem note_copying (hab : s.aborted = none) (second : Option Snapshot) (copied : Finset ι) :
    h.note c reader dst second (setConsumer s c ⟨reader, .copying dst temp copied, result⟩) = h := by
  simp only [History.note, outcomeOf, setConsumer, hab, Function.update_self]

/-- The first load ends the `pop` with an overrun or empty-handed, or the copy begins. -/
theorem loadFirst_cases (hab : s.aborted = none)
    (hc : s.consumers c = some ⟨reader, .loadFirst dst, result⟩) :
    let v := (s.buffer (g.slotIndex reader)).version
    let s' := checkFirst g s c reader dst result
    let h' := observe s (.loadFirst c) s' h
    (g.expectedVersion reader < v ∧ (∃ e, s' = { s with aborted := some e }) ∧
      h' = (h.loaded c).ended ⟨c, reader, dst, h.now, none, .overrun, none⟩) ∨
    (v < g.expectedVersion reader ∧ s' = setConsumer s c ⟨reader, .idle, some (false, dst)⟩ ∧
      h' = (h.loaded c).ended ⟨c, reader, dst, h.now, none, .empty, some (reader, dst)⟩) ∨
    (¬ g.expectedVersion reader < v ∧ ¬ v < g.expectedVersion reader ∧
      s' = setConsumer s c ⟨reader, .copying dst dst ∅, result⟩ ∧ h' = h.loaded c) := by
  intro v s' h'
  have hnote : h' = (h.loaded c).note c reader dst none s' := by simp only [h', observe, hc]
  have hfirst : (h.loaded c).first c = h.now := Function.update_self ..
  rw [hnote]
  by_cases hgt : g.expectedVersion reader < v
  · have hs' : s' = { s with aborted := some "Consumer was overun before trying to pop." } :=
      if_pos hgt
    refine .inl ⟨hgt, ⟨_, hs'⟩, ?_⟩
    rw [note_aborted (congrArg State.aborted hs'), hfirst]
  · by_cases hlt : v < g.expectedVersion reader
    · have hs' : s' = setConsumer s c ⟨reader, .idle, some (false, dst)⟩ :=
        (if_neg hgt).trans (if_pos hlt)
      refine .inr (.inl ⟨hlt, hs', ?_⟩)
      rw [hs', note_idle hab, hfirst]
      rfl
    · have hs' : s' = setConsumer s c ⟨reader, .copying dst dst ∅, result⟩ :=
        (if_neg hgt).trans (if_neg hlt)
      refine .inr (.inr ⟨hgt, hlt, hs', ?_⟩)
      rw [hs', note_copying hab]

/-- The second load ends the `pop` with an overrun or with the copy. -/
theorem loadSecond_cases [Fintype ι] (hab : s.aborted = none)
    (hc : s.consumers c = some ⟨reader, .copying dst temp Finset.univ, result⟩) :
    let v := (s.buffer (g.slotIndex reader)).version
    let s' := checkSecond g s c reader temp
    let h' := observe s (.loadSecond c) s' h
    (v ≠ g.expectedVersion reader ∧ (∃ e, s' = { s with aborted := some e }) ∧
      h' = h.ended ⟨c, reader, dst, h.first c, some h.now, .overrun, none⟩) ∨
    (v = g.expectedVersion reader ∧
      s' = setConsumer s c ⟨reader + 1, .idle, some (true, temp)⟩ ∧
      h' = h.ended ⟨c, reader, dst, h.first c, some h.now, .returned, some (reader + 1, temp)⟩) := by
  intro v s' h'
  have hnote : h' = h.note c reader dst (some h.now) s' := by simp only [h', observe, hc]
  rw [hnote]
  by_cases hne : v ≠ g.expectedVersion reader
  · have hs' : s' = { s with aborted := some "Consumer was overun while popping." } := if_pos hne
    refine .inl ⟨hne, ⟨_, hs'⟩, ?_⟩
    rw [note_aborted (congrArg State.aborted hs')]
  · have hs' : s' = setConsumer s c ⟨reader + 1, .idle, some (true, temp)⟩ := if_neg hne
    refine .inr ⟨not_not.mp hne, hs', ?_⟩
    rw [hs', note_idle hab]
    rfl

end Loads

/-! ## The actions of a consumer -/

section Consumer
variable {ι Word C : Type} [DecidableEq C] {g : Geometry} {s : State ι Word C}
  {h h' : History ι Word C}

/-- The same pushes. -/
structure SamePushes (h h' : History ι Word C) : Prop where
  pushed : h'.pushed = h.pushed
  begun : h'.begun = h.begun
  finished : h'.finished = h.finished

/-- The same pops of a consumer, up to its pop under way. -/
structure SamePops (h h' : History ι Word C) (c : C) : Prop where
  start : h'.start c = h.start c
  received : h'.received c = h.received c

omit [DecidableEq C] in
theorem ProducerOk.same (hprod : ProducerOk g s h) (hpushes : SamePushes h h') :
    ProducerOk g s h' := by
  unfold ProducerOk at hprod ⊢
  rw [hpushes.pushed, hpushes.begun, hpushes.finished]
  exact hprod

theorem ConsumerOk.same {c : C} {k : Consumer ι Word} (hk : ConsumerOk g h c k)
    (hpushes : SamePushes h h') (hpops : SamePops h h' c) (hfirst : h'.first c = h.first c) :
    ConsumerOk g h' c k where
  reader := by rw [hpops.start, hpops.received, hk.reader]
  received := by rw [hpops.start, hpops.received, hpushes.pushed]; exact hk.received
  reader_le := by rw [hpushes.finished]; exact hk.reader_le
  copying dst temp copied hpop := by
    rw [hfirst, hpushes.pushed, hpushes.begun, hpushes.finished]
    exact hk.copying dst temp copied hpop

theorem ConsumerOk.still {c : C} {k k' : Consumer ι Word} (hk : ConsumerOk g h c k)
    (hpushes : SamePushes h h') (hpops : SamePops h h' c) (hreader : k'.reader = k.reader)
    (hpop : ∀ dst temp copied, k'.pop ≠ .copying dst temp copied) : ConsumerOk g h' c k' where
  reader := by rw [hreader, hpops.start, hpops.received, hk.reader]
  received := by rw [hpops.start, hpops.received, hpushes.pushed]; exact hk.received
  reader_le := by rw [hreader, hpushes.finished]; exact hk.reader_le
  copying dst temp copied h := absurd h (hpop dst temp copied)

/-- An action of one consumer says nothing new about the others, or about the producer. -/
theorem Inv.consume (hinv : Inv g s h) (c : C) (k : Consumer ι Word) (hpushes : SamePushes h h')
    (hother : ∀ d, d ≠ c → SamePops h h' d ∧ h'.first d = h.first d) (hk : ConsumerOk g h' c k) :
    Inv g (setConsumer s c k) h' := by
  refine ⟨?_, ?_, ?_, ?_, hinv.producer.same hpushes, ?_, ?_, fun d l hl => ?_, fun d hd => ?_⟩
  · rw [hpushes.finished, hpushes.begun]; exact hinv.finished_le
  · rw [hpushes.finished, hpushes.begun]; exact hinv.begun_le
  · rw [hpushes.pushed, hpushes.begun]; exact hinv.begun_le_pushed
  · rw [hpushes.finished]; exact hinv.writer_le
  · rw [hpushes.finished, hpushes.begun]; exact hinv.version
  · rw [hpushes.pushed, hpushes.finished, hpushes.begun]; exact hinv.data
  · dsimp only [setConsumer] at hl
    by_cases hdc : d = c
    · subst hdc
      rw [Function.update_self] at hl
      cases hl
      exact hk
    · rw [Function.update_of_ne hdc] at hl
      exact (hinv.consumer d l hl).same hpushes (hother d hdc).1 (hother d hdc).2
  · dsimp only [setConsumer] at hd
    by_cases hdc : d = c
    · subst hdc
      rw [Function.update_self] at hd
      cases hd
    · rw [Function.update_of_ne hdc] at hd
      rw [(hother d hdc).1.received, hinv.fresh d hd]

theorem Inv.abort {c : C} {k : Consumer ι Word} (hc : s.consumers c = some k)
    (hinv : Inv g (setConsumer s c k) h) (e : String) : Inv g { s with aborted := some e } h := by
  have hself : (setConsumer s c k).consumers = s.consumers := by
    show Function.update s.consumers c (some k) = s.consumers
    rw [← hc, Function.update_eq_self]
  refine ⟨hinv.finished_le, hinv.begun_le, hinv.begun_le_pushed, hinv.writer_le, hinv.producer,
    hinv.version, hinv.data, fun d l hl => hinv.consumer d l ?_, fun d hd => hinv.fresh d ?_⟩
  · rw [hself]
    exact hl
  · rw [hself]
    exact hd

theorem samePops_loaded (c d : C) : SamePops h (h.loaded c) d := ⟨rfl, rfl⟩

theorem first_loaded_ne {c d : C} (hd : d ≠ c) : (h.loaded c).first d = h.first d :=
  Function.update_of_ne hd ..

theorem samePops_ended {p : Pop ι Word C} (d : C)
    (hp : d ≠ p.consumer ∨ p.outcome ≠ .returned) : SamePops h (h.ended p) d where
  start := rfl
  received := by
    cases hp with
    | inl hd => exact received_ended_ne hd
    | inr hout => exact received_ended_other hout d

theorem Inv.makeConsumer (hinv : Inv g s h) {c : C} (hc : s.consumers c = none) :
    Inv g (setConsumer s c ⟨s.writer, .idle, none⟩)
      { h with start := Function.update h.start c s.writer.toNat } := by
  have hempty : h.received c = [] := hinv.fresh c hc
  refine hinv.consume c _ ⟨rfl, rfl, rfl⟩
    (fun d hd => ⟨⟨Function.update_of_ne hd .., rfl⟩, rfl⟩) ⟨?_, ?_, hinv.writer_le, ?_⟩
  · show s.writer.toNat = Function.update h.start c s.writer.toNat c + (h.received c).length
    rw [Function.update_self, hempty]
    rfl
  · show h.received c <+: _
    rw [hempty]
    exact List.nil_prefix
  · intro dst temp copied hpop
    cases hpop

theorem Inv.pop (hinv : Inv g s h) {c : C} {reader : UInt64} {dst : Value ι Word}
    {result : Option (Bool × Value ι Word)} (hc : s.consumers c = some ⟨reader, .idle, result⟩) :
    Inv g (setConsumer s c ⟨reader, .loadFirst dst, result⟩) h := by
  refine hinv.consume c _ ⟨rfl, rfl, rfl⟩ (fun d _ => ⟨⟨rfl, rfl⟩, rfl⟩) ?_
  exact (hinv.consumer c _ hc).still ⟨rfl, rfl, rfl⟩ ⟨rfl, rfl⟩ rfl (by intros; simp)

theorem Inv.loadFirst (hinv : Inv g s h) (hfew : h.pushed.length < 2 ^ 63)
    (hab : s.aborted = none) {c : C} {reader : UInt64} {dst : Value ι Word}
    {result : Option (Bool × Value ι Word)}
    (hc : s.consumers c = some ⟨reader, .loadFirst dst, result⟩) :
    Inv g (checkFirst g s c reader dst result)
      (observe s (.loadFirst c) (checkFirst g s c reader dst result) h) := by
  have hk := hinv.consumer c _ hc
  have hends : ∀ (outcome : Outcome) (after : Option (UInt64 × Value ι Word))
      (result' : Option (Bool × Value ι Word)) (ps : PopState ι Word), outcome ≠ .returned →
      (∀ d temp copied, ps ≠ .copying d temp copied) →
      Inv g (setConsumer s c ⟨reader, ps, result'⟩)
        ((h.loaded c).ended ⟨c, reader, dst, h.now, none, outcome, after⟩) := by
    intro outcome after result' ps hout hps
    have hpops : ∀ d, SamePops h
        ((h.loaded c).ended ⟨c, reader, dst, h.now, none, outcome, after⟩) d := by
      intro d
      have hended := samePops_ended (h := h.loaded c) d
        (p := ⟨c, reader, dst, h.now, none, outcome, after⟩) (.inr hout)
      exact ⟨hended.start, hended.received⟩
    refine hinv.consume c _ ⟨rfl, rfl, rfl⟩ (fun d hd => ⟨hpops d, first_loaded_ne hd⟩) ?_
    exact hk.still ⟨rfl, rfl, rfl⟩ (hpops c) rfl hps
  obtain ⟨-, ⟨e, hs'⟩, hh'⟩ | ⟨-, hs', hh'⟩ | ⟨hgt, hlt, hs', hh'⟩ :=
    loadFirst_cases (g := g) (h := h) hab hc
  · rw [hh', hs']
    exact (hends .overrun none result (.loadFirst dst) (by simp) (by intros; simp)).abort hc e
  · rw [hh', hs']
    exact hends .empty _ _ .idle (by simp) (by intros; simp)
  · rw [hh', hs']
    obtain ⟨hfin, hbeg⟩ := hinv.check_passed hk.reader_le hfew hgt hlt
    refine hinv.consume c _ ⟨rfl, rfl, rfl⟩
      (fun d hd => ⟨samePops_loaded c d, first_loaded_ne hd⟩)
      ⟨hk.reader, hk.received, hk.reader_le, ?_⟩
    intro d temp copied hpop
    cases hpop
    have hfirst : (h.loaded c).first c = h.now := Function.update_self ..
    rw [hfirst]
    exact ⟨⟨hfin, hbeg, le_refl _⟩, by simp⟩

theorem Inv.copyWord [DecidableEq ι] (hinv : Inv g s h) {c : C} {reader : UInt64} {i : ι}
    {dst temp : Value ι Word} {copied : Finset ι} {result : Option (Bool × Value ι Word)}
    (hc : s.consumers c = some ⟨reader, .copying dst temp copied, result⟩) :
    Inv g (setConsumer s c ⟨reader, .copying dst
      (Function.update temp i ((s.buffer (g.slotIndex reader)).data i)) (insert i copied), result⟩)
      h := by
  have hk := hinv.consumer c _ hc
  obtain ⟨hseen, hcopied⟩ := hk.copying dst temp copied rfl
  refine hinv.consume c _ ⟨rfl, rfl, rfl⟩ (fun d _ => ⟨⟨rfl, rfl⟩, rfl⟩)
    ⟨hk.reader, hk.received, hk.reader_le, ?_⟩
  intro d temp' copied' hpop
  cases hpop
  refine ⟨hseen, fun hround v hv j hj => ?_⟩
  by_cases hji : j = i
  · subst hji
    have hslot := hinv.data reader.toNat v hv (hseen.1.trans_le hseen.2.2) hround
    rw [Function.update_self, g.slotIndex_eq, hslot]
  · rw [Function.update_of_ne hji]
    exact hcopied hround v hv j (Finset.mem_of_mem_insert_of_ne hj hji)

theorem Inv.loadSecond [Fintype ι] (hinv : Inv g s h) (hfew : h.pushed.length < 2 ^ 63)
    (hab : s.aborted = none) {c : C} {reader : UInt64} {dst temp : Value ι Word}
    {result : Option (Bool × Value ι Word)}
    (hc : s.consumers c = some ⟨reader, .copying dst temp Finset.univ, result⟩) :
    Inv g (checkSecond g s c reader temp)
      (observe s (.loadSecond c) (checkSecond g s c reader temp) h) := by
  have hk := hinv.consumer c _ hc
  obtain ⟨-, hcopied⟩ := hk.copying dst temp _ rfl
  obtain ⟨-, ⟨e, hs'⟩, hh'⟩ | ⟨hv, hs', hh'⟩ := loadSecond_cases (g := g) (h := h) hab hc
  · rw [hh', hs']
    have hpops : ∀ d, SamePops h
        (h.ended ⟨c, reader, dst, h.first c, some h.now, .overrun, none⟩) d :=
      fun d => samePops_ended d (.inr (by simp))
    refine Inv.abort hc ?_ e
    exact hinv.consume c _ ⟨rfl, rfl, rfl⟩ (fun d _ => ⟨hpops d, rfl⟩)
      (hk.same ⟨rfl, rfl, rfl⟩ (hpops c) rfl)
  · rw [hh', hs']
    have hreader_le : reader.toNat ≤ h.finished := hk.reader_le
    obtain ⟨hbefore, hround⟩ := hinv.check_passed hreader_le hfew
      (by rw [hv]; exact UInt64.lt_irrefl _) (by rw [hv]; exact UInt64.lt_irrefl _)
    -- all words were copied while push `reader` was in the slot
    have hlt : reader.toNat < h.pushed.length :=
      hbefore.trans_le (hinv.finished_le.trans hinv.begun_le_pushed)
    have hpushed : h.pushed[reader.toNat]? = some temp := by
      rw [List.getElem?_eq_getElem hlt]
      congr 1
      funext i
      exact (hcopied hround _ (List.getElem?_eq_getElem hlt) i (Finset.mem_univ i)).symm
    have hnext : (reader + 1).toNat = reader.toNat + 1 := by
      have hone : (1 : UInt64).toNat = 1 := rfl
      rw [UInt64.toNat_add, hone]
      omega
    have hreceived : (h.ended
        ⟨c, reader, dst, h.first c, some h.now, .returned, some (reader + 1, temp)⟩).received c =
        h.received c ++ [temp] := by
      rw [received_ended rfl rfl]
      exact if_pos rfl
    have hreader : reader.toNat = h.start c + (h.received c).length := hk.reader
    refine hinv.consume c _ ⟨rfl, rfl, rfl⟩
      (fun d hd => ⟨samePops_ended d (.inl hd), rfl⟩) ⟨?_, ?_, ?_, ?_⟩
    · show (reader + 1).toNat = h.start c + _
      rw [hreceived, hnext, hreader, List.length_append, List.length_singleton, Nat.add_assoc]
    · show _ <+: h.pushed.drop (h.start c)
      rw [hreceived]
      refine prefix_concat hk.received ?_
      rw [List.getElem?_drop, ← hreader, hpushed]
    · show (reader + 1).toNat ≤ h.finished
      rw [hnext]
      exact hbefore
    · intro d temp' copied hpop
      cases hpop

end Consumer

/-! ## Runs -/

section Runs
variable {ι Word C : Type} [DecidableEq ι] [Fintype ι] [DecidableEq C] {g : Geometry}
  {s s' : State ι Word C} {h h' : History ι Word C}

omit [DecidableEq ι] [Fintype ι] [DecidableEq C] in
theorem note_pushed (c : C) (reader : UInt64) (dst : Value ι Word) (second : Option Snapshot) :
    (h.note c reader dst second s').pushed = h.pushed := by
  unfold History.note
  split <;> rfl

omit [DecidableEq ι] [Fintype ι] in
theorem observe_pushed (s : State ι Word C) (a : Action ι Word C) (s' : State ι Word C)
    (h : History ι Word C) : h.pushed <+: (observe s a s' h).pushed := by
  cases a with
  | push val => exact List.prefix_append _ _
  | loadFirst c =>
    dsimp only [observe]
    split
    · rw [note_pushed]
      exact List.prefix_refl _
    · exact List.prefix_refl _
  | loadSecond c =>
    dsimp only [observe]
    split
    · rw [note_pushed]
    · exact List.prefix_refl _
  | _ => exact List.prefix_refl _

theorem Inv.step {a : Action ι Word C} (hinv : Inv g s h) (hstep : step g s a = .ok s')
    (hfew : (observe s a s' h).pushed.length < 2 ^ 63) : Inv g s' (observe s a s' h) := by
  have hbefore : h.pushed.length < 2 ^ 63 :=
    lt_of_le_of_lt (observe_pushed s a s' h).length_le hfew
  obtain ⟨hab, hsteps⟩ := step_ok g hstep
  cases hsteps with
  | push hp => exact hinv.push hp
  | loadWriter hp => exact hinv.loadWriter hp
  | loadVersion hp => exact hinv.loadVersion hp
  | storeOdd hp => exact hinv.storeOdd hbefore hp
  | writeWord hp => exact hinv.writeWord hp
  | storeEven hp => exact hinv.storeEven hbefore hp
  | storeWriter hp => exact hinv.storeWriter hbefore hp
  | makeConsumer hc => exact hinv.makeConsumer hc
  | pop hc => exact hinv.pop hc
  | loadFirst hc => exact hinv.loadFirst hbefore hab hc
  | copyWord hc => exact hinv.copyWord hc
  | loadSecond hc => exact hinv.loadSecond hbefore hab hc

variable {data : ℕ → Value ι Word} {as : List (Action ι Word C)}

theorem run_inv (hrun : run (track g) (init data, .init) as = .ok (s, h))
    (hfew : h.pushed.length < 2 ^ 63) : Inv g s h := by
  refine run_invariant (fun sh : State ι Word C × History ι Word C =>
    sh.2.pushed.length < 2 ^ 63 → Inv g sh.1 sh.2) (fun _ => init_inv g data) ?_ hrun hfew
  rintro ⟨t, k⟩ a ⟨u, k'⟩ ih htrack hfew'
  obtain ⟨hstep, rfl⟩ := track_ok htrack
  have hmono := observe_pushed t a u k
  exact (ih (lt_of_le_of_lt hmono.length_le hfew')).step hstep hfew'

/-- **Broadcast.** In every interleaving with fewer than `2 ^ 63` pushes, what a consumer has
received is a run of consecutive pushes, from the value of `writer` it was created with. -/
theorem received_in_order (hrun : run (track g) (init data, .init) as = .ok (s, h))
    (hfew : h.pushed.length < 2 ^ 63) (c : C) :
    h.received c = (h.pushed.drop (h.start c)).take (h.received c).length := by
  have hinv := run_inv hrun hfew
  cases hc : s.consumers c with
  | none => rw [hinv.fresh c hc]; rfl
  | some k => exact List.prefix_iff_eq_take.mp (hinv.consumer c k hc).received

end Runs

/-- A ring of two slots of 4 MB. -/
def Geometry.twoSlots : Geometry := ⟨4194304, 1, by decide, by decide⟩

theorem received_in_order_sample :
    ∃ (s : State (Fin 2) ℕ Bool) (h : History (Fin 2) ℕ Bool),
      run (track .twoSlots) (init fun _ _ => 0, .init)
        [.push ![1, 2], .loadWriter, .makeConsumer true, .loadVersion, .storeOdd, .writeWord 1,
          .pop true ![0, 0], .writeWord 0, .storeEven, .loadFirst true, .copyWord true 0,
          .storeWriter, .push ![3, 4], .copyWord true 1, .loadWriter, .loadSecond true] =
        .ok (s, h) ∧ (h.received true).length = 1 ∧
      h.received true = (h.pushed.drop (h.start true)).take (h.received true).length := by
  obtain ⟨s, h, hrun, hlen, hfew⟩ : ∃ (s : State (Fin 2) ℕ Bool) (h : History (Fin 2) ℕ Bool),
      run (track .twoSlots) (init fun _ _ => 0, .init)
        [.push ![1, 2], .loadWriter, .makeConsumer true, .loadVersion, .storeOdd, .writeWord 1,
          .pop true ![0, 0], .writeWord 0, .storeEven, .loadFirst true, .copyWord true 0,
          .storeWriter, .push ![3, 4], .copyWord true 1, .loadWriter, .loadSecond true] =
        .ok (s, h) ∧ (h.received true).length = 1 ∧ h.pushed.length = 2 := ⟨_, _, rfl, rfl, rfl⟩
  exact ⟨s, h, hrun, hlen, received_in_order hrun (by omega) true⟩

end ItchIngestion.SPMC
