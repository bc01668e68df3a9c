import ItchIngestion.Queue.SPSCQueue

/-! # The queue is a bounded FIFO

`P` values were published and `C` popped: `writer_` is `P` and `reader_` is `C` modulo `2 ^ 64`, and
`P - C` stays below the number of slots, so the difference of the counters is exact across the wrap
(`used_toNat`). A producer that found room still has it at its stores, a consumer that found a value
still has it, because each of the two counters moves in the direction that helps the other party.
Value number `n` waits in slot `n % bufferSizeSlots` from its publication to its reading.
-/
namespace ItchIngestion.SPSC
open Library
set_option autoImplicit false

/-! ## Arithmetic of the counters -/

theorem bufferSizeSlots_eq : bufferSizeSlots = 131072 := rfl

section Counters
variable {writer reader : UInt64} {P C : ℕ} (hw : writer.toNat = P % 2 ^ 64)
  (hr : reader.toNat = C % 2 ^ 64)
include hw

theorem counter_succ : (writer + 1).toNat = (P + 1) % 2 ^ 64 := by
  have hone : (1 : UInt64).toNat = 1 := rfl
  rw [UInt64.toNat_add, hw, hone]
  omega

theorem slotIndex_counter : slotIndex writer = P % bufferSizeSlots := by
  have hmask : wrapMask.toNat = 2 ^ 17 - 1 := by decide
  rw [slotIndex, UInt64.toNat_and, hmask, Nat.and_two_pow_sub_one_eq_mod, hw, bufferSizeSlots_eq]
  omega

include hr

theorem used_toNat (hle : C ≤ P) (hroom : P ≤ C + (bufferSizeSlots - 1)) :
    (used writer reader).toNat = P - C := by
  rw [bufferSizeSlots_eq] at hroom
  rw [used, UInt64.toNat_sub, hw, hr]
  omega

theorem freeSpace_toNat (hle : C ≤ P) (hroom : P ≤ C + (bufferSizeSlots - 1)) :
    (freeSpace (used writer reader)).toNat = bufferSizeSlots - 1 - (P - C) := by
  have hused := used_toNat hw hr hle hroom
  have hsize : (UInt64.ofNat bufferSizeSlots - 1).toNat = bufferSizeSlots - 1 := by decide
  rw [freeSpace, UInt64.toNat_sub, hused, hsize]
  rw [bufferSizeSlots_eq] at hroom ⊢
  omega

theorem noSpace_iff (hle : C ≤ P) (hroom : P ≤ C + (bufferSizeSlots - 1)) :
    freeSpace (used writer reader) < 1 ↔ P = C + (bufferSizeSlots - 1) := by
  have hfree := freeSpace_toNat hw hr hle hroom
  have hone : (1 : UInt64).toNat = 1 := rfl
  rw [UInt64.lt_iff_toNat_lt, hfree, hone]
  omega

theorem reader_eq_iff (hle : C ≤ P) (hroom : P ≤ C + (bufferSizeSlots - 1)) :
    reader = writer ↔ P = C := by
  rw [bufferSizeSlots_eq] at hroom
  rw [← UInt64.toNat_inj, hw, hr]
  omega

end Counters

/-! ## The invariant -/

section Invariant
variable {T : Type}

/-- The published values. -/
def History.values (h : History T) : List T := h.published.map Entry.value

/-- A value that is published and not yet popped. -/
def History.Unread (h : History T) (n : ℕ) : Prop :=
  h.popped.length ≤ n ∧ n < h.published.length

/-- What the producer knows at its place in `try_push`. -/
def ProducerOk (s : State T) (h : History T) : Prop :=
  match s.producer with
  | .idle returned => returned = some false → h.pushTouched = false
  | .loadWriter _ => h.pushTouched = false
  | .loadReader _ writer => writer = s.writer ∧ h.pushTouched = false
  | .writeSlot _ writer =>
    writer = s.writer ∧ h.published.length < h.popped.length + (bufferSizeSlots - 1)
  | .storeWriter data writer =>
    writer = s.writer ∧ h.published.length < h.popped.length + (bufferSizeSlots - 1) ∧
      s.buffer (slotIndex writer) = data

/-- What the consumer knows at its place in `try_pop`. -/
def ConsumerOk (s : State T) (h : History T) : Prop :=
  match s.consumer with
  | .idle returned => returned = some false → h.popTouched = false
  | .loadReader => h.popTouched = false
  | .loadWriter reader => reader = s.reader ∧ h.popTouched = false
  | .readSlot reader => reader = s.reader ∧ h.popped.length < h.published.length
  | .storeReader dst reader => reader = s.reader ∧ h.values[h.popped.length]? = some dst

/-- The slot of value `n` has been read, and its `reader_` store is still to come. -/
def Taken (s : State T) (h : History T) (n : ℕ) : Prop :=
  n = h.popped.length ∧ ∃ dst reader, s.consumer = .storeReader dst reader

/-- The counters count, the slots hold the unread values, and both parties know what they need. -/
structure Inv (s : State T) (h : History T) : Prop where
  writer : s.writer.toNat = h.published.length % 2 ^ 64
  reader : s.reader.toNat = h.popped.length % 2 ^ 64
  popped_le : h.popped.length ≤ h.published.length
  room : h.published.length ≤ h.popped.length + (bufferSizeSlots - 1)
  popped : h.popped <+: h.values
  slots : ∀ n e, h.published[n]? = some e → e.slot = n % bufferSizeSlots
  stored : ∀ n, h.Unread n → ¬ Taken s h n → h.values[n]? = some (s.buffer (n % bufferSizeSlots))
  producer : ProducerOk s h
  consumer : ConsumerOk s h

theorem init_inv (storage : ℕ → T) : Inv (init storage) .init where
  writer := rfl
  reader := rfl
  popped_le := Nat.le_refl _
  room := Nat.zero_le _
  popped := List.nil_prefix
  slots n e h := by simp [History.init] at h
  stored n hn := absurd hn.2 (Nat.not_lt_zero n)
  producer := fun h => by cases h
  consumer := fun h => by cases h

/-- Unread values wait in different slots, and none where the next one goes. -/
theorem slot_ne_of_unread {h : History T} {n : ℕ}
    (hroom : h.published.length < h.popped.length + (bufferSizeSlots - 1)) (hn : h.Unread n) :
    n % bufferSizeSlots ≠ h.published.length % bufferSizeSlots := by
  obtain ⟨hlo, hhi⟩ := hn
  exact mod_ne_of_lt hhi (by omega)

end Invariant

/-! ## The steps -/

section Step
attribute [local irreducible] bufferSizeSlots
variable {T : Type} {leftover : T → T} {s : State T} {h : History T}

theorem not_taken (hc : ∀ dst reader, s.consumer ≠ .storeReader dst reader) {n : ℕ} : ¬ Taken s h n :=
  fun ⟨_, dst, reader, hs⟩ => hc dst reader hs

theorem Inv.produce (hinv : Inv s h) (p : Producer T) (touched : Bool)
    (hp : ProducerOk { s with producer := p } { h with pushTouched := touched }) :
    Inv { s with producer := p } { h with pushTouched := touched } :=
  ⟨hinv.writer, hinv.reader, hinv.popped_le, hinv.room, hinv.popped, hinv.slots, hinv.stored, hp,
    hinv.consumer⟩

theorem Inv.consume (hinv : Inv s h) (c : Consumer T) (touched : Bool)
    (hidle : ∀ dst reader, s.consumer ≠ .storeReader dst reader)
    (hc : ConsumerOk { s with consumer := c } { h with popTouched := touched }) :
    Inv { s with consumer := c } { h with popTouched := touched } :=
  ⟨hinv.writer, hinv.reader, hinv.popped_le, hinv.room, hinv.popped, hinv.slots,
    fun n hn _ => hinv.stored n hn (not_taken hidle), hinv.producer, hc⟩

/-- What is true of the producer stays true while the consumer takes values off the queue. -/
theorem ProducerOk.frame {s' : State T} {h' : History T} (hok : ProducerOk s h)
    (hp : s'.producer = s.producer) (hw : s'.writer = s.writer)
    (ht : h'.pushTouched = h.pushTouched) (hpub : h'.published = h.published)
    (hpop : h.popped.length ≤ h'.popped.length)
    (hbuf : ∀ data, s.producer = .storeWriter data s.writer →
      s'.buffer (slotIndex s.writer) = s.buffer (slotIndex s.writer)) : ProducerOk s' h' := by
  rw [ProducerOk] at hok ⊢
  rw [hp, hw, ht, hpub]
  cases hprod : s.producer with
  | idle returned =>
    rw [hprod] at hok
    exact hok
  | loadWriter data =>
    rw [hprod] at hok
    exact hok
  | loadReader data writer =>
    rw [hprod] at hok
    exact hok
  | writeSlot data writer =>
    rw [hprod] at hok
    exact ⟨hok.1, hok.2.trans_le (Nat.add_le_add_right hpop _)⟩
  | storeWriter data writer =>
    rw [hprod] at hok
    obtain ⟨rfl, hroom, hdata⟩ := hok
    exact ⟨rfl, hroom.trans_le (Nat.add_le_add_right hpop _), (hbuf data hprod).trans hdata⟩

/-- What is true of the consumer stays true while the producer puts values on the queue. -/
theorem ConsumerOk.frame {s' : State T} {h' : History T} (hok : ConsumerOk s h)
    (hc : s'.consumer = s.consumer) (hr : s'.reader = s.reader) (ht : h'.popTouched = h.popTouched)
    (hpop : h'.popped = h.popped) (hpub : h.published.length ≤ h'.published.length)
    (hvalues : ∀ (n : ℕ) dst, h.values[n]? = some dst → h'.values[n]? = some dst) :
    ConsumerOk s' h' := by
  rw [ConsumerOk] at hok ⊢
  rw [hc, hr, ht, hpop]
  cases hcons : s.consumer with
  | idle returned =>
    rw [hcons] at hok
    exact hok
  | loadReader =>
    rw [hcons] at hok
    exact hok
  | loadWriter reader =>
    rw [hcons] at hok
    exact hok
  | readSlot reader =>
    rw [hcons] at hok
    exact ⟨hok.1, hok.2.trans_le hpub⟩
  | storeReader dst reader =>
    rw [hcons] at hok
    exact ⟨hok.1, hvalues _ dst hok.2⟩

theorem Inv.pushLoadReader (hinv : Inv s h) {data : T} {writer : UInt64}
    (hp : s.producer = .loadReader data writer) :
    Inv { s with producer := checkSpace data writer s.reader } h := by
  have hprod := hinv.producer
  rw [ProducerOk, hp] at hprod
  obtain ⟨rfl, htouched⟩ := hprod
  refine hinv.produce _ h.pushTouched ?_
  have hfull := noSpace_iff hinv.writer hinv.reader hinv.popped_le hinv.room
  unfold checkSpace
  split
  · exact fun _ => htouched
  · rename_i hspace
    have hroom := hinv.room
    rw [hfull] at hspace
    have hlt : h.published.length < h.popped.length + (bufferSizeSlots - 1) := by omega
    exact ⟨rfl, hlt⟩

theorem Inv.popLoadWriter (hinv : Inv s h) {reader : UInt64} (hc : s.consumer = .loadWriter reader) :
    Inv { s with consumer := checkEmpty reader s.writer } h := by
  have hcons := hinv.consumer
  rw [ConsumerOk, hc] at hcons
  obtain ⟨rfl, htouched⟩ := hcons
  refine hinv.consume _ h.popTouched (fun _ _ e => by rw [hc] at e; cases e) ?_
  have hempty := reader_eq_iff hinv.writer hinv.reader hinv.popped_le hinv.room
  unfold checkEmpty
  split
  · exact fun _ => htouched
  · rename_i hne
    have hle := hinv.popped_le
    rw [hempty] at hne
    have hlt : h.popped.length < h.published.length := by omega
    exact ⟨rfl, hlt⟩

theorem Inv.writeSlot (hinv : Inv s h) {data : T} {writer : UInt64}
    (hp : s.producer = .writeSlot data writer) :
    Inv { s with
      buffer := Function.update s.buffer (slotIndex writer) data
      producer := .storeWriter data writer } { h with pushTouched := true } := by
  have hprod := hinv.producer
  rw [ProducerOk, hp] at hprod
  obtain ⟨rfl, hroom⟩ := hprod
  refine ⟨hinv.writer, hinv.reader, hinv.popped_le, hinv.room, hinv.popped, hinv.slots, ?_,
    ⟨rfl, hroom, Function.update_self ..⟩, hinv.consumer⟩
  intro n hn ht
  have hne := slot_ne_of_unread hroom hn
  show h.values[n]? = some (Function.update s.buffer (slotIndex s.writer) data _)
  rw [slotIndex_counter hinv.writer, Function.update_of_ne hne]
  exact hinv.stored n hn ht

theorem Inv.storeWriter (hinv : Inv s h) {data : T} {writer : UInt64}
    (hp : s.producer = .storeWriter data writer) :
    Inv { s with writer := writer + 1, producer := .idle (some true) }
      { h with published := h.published ++ [⟨slotIndex writer, data⟩], pushTouched := true } := by
  have hprod := hinv.producer
  rw [ProducerOk, hp] at hprod
  obtain ⟨rfl, hroom, hbuf⟩ := hprod
  have hvalues : History.values { h with
      published := h.published ++ [⟨slotIndex s.writer, data⟩], pushTouched := true } =
      h.values ++ [data] := List.map_append
  have hlen : h.values.length = h.published.length := List.length_map ..
  have hslot := slotIndex_counter hinv.writer
  have hmore : (h.published ++ [(⟨slotIndex s.writer, data⟩ : Entry T)]).length =
      h.published.length + 1 := List.length_append
  have hle := hinv.popped_le
  refine ⟨?_, hinv.reader, ?_, ?_, ?_, ?_, ?_, fun e => ?_, ?_⟩
  · rw [hmore]
    exact counter_succ hinv.writer
  · rw [hmore]
    exact Nat.le_succ_of_le hle
  · rw [hmore]
    exact hroom
  · rw [hvalues]
    exact hinv.popped.trans (List.prefix_append ..)
  · intro n e hn
    rcases getElem?_concat.mp hn with hn | ⟨rfl, rfl⟩
    · exact hinv.slots n e hn
    · exact hslot
  · intro n hn ht
    rw [hvalues, getElem?_concat, hlen]
    rcases Nat.lt_or_ge n h.published.length with hlt | hge
    · exact Or.inl (hinv.stored n ⟨hn.1, hlt⟩ ht)
    · have hn' : n < h.published.length + 1 := hmore ▸ hn.2
      obtain rfl : n = h.published.length := by omega
      rw [← hslot]
      exact Or.inr ⟨rfl, hbuf.symm⟩
  · cases e
  · refine hinv.consumer.frame rfl rfl rfl rfl (Nat.le_of_lt (hmore ▸ Nat.lt_succ_self _)) ?_
    intro n dst hn
    rw [hvalues]
    exact getElem?_concat.mpr (Or.inl hn)

theorem Inv.readSlot (hinv : Inv s h) {reader : UInt64} (hc : s.consumer = .readSlot reader) :
    Inv { s with
      buffer := Function.update s.buffer (slotIndex reader) (leftover (s.buffer (slotIndex reader)))
      consumer := .storeReader (s.buffer (slotIndex reader)) reader } { h with popTouched := true } := by
  have hcons := hinv.consumer
  rw [ConsumerOk, hc] at hcons
  obtain ⟨rfl, hlt⟩ := hcons
  have hslot := slotIndex_counter hinv.reader
  have hroom := hinv.room
  have hnot : ∀ {n : ℕ}, ¬ Taken s h n := not_taken fun _ _ e => by rw [hc] at e; cases e
  refine ⟨hinv.writer, hinv.reader, hinv.popped_le, hinv.room, hinv.popped, hinv.slots, ?_, ?_, rfl, ?_⟩
  · intro n hn ht
    have hne : n ≠ h.popped.length := fun e => ht ⟨e, _, _, rfl⟩
    have hmod : n % bufferSizeSlots ≠ h.popped.length % bufferSizeSlots := by
      obtain ⟨hlo, hhi⟩ : h.popped.length ≤ n ∧ n < h.published.length := hn
      exact (mod_ne_of_lt (by omega) (by omega)).symm
    show h.values[n]? = some (Function.update s.buffer _ _ _)
    rw [hslot, Function.update_of_ne hmod]
    exact hinv.stored n hn hnot
  · refine hinv.producer.frame rfl rfl rfl rfl (Nat.le_refl _) fun data hp => ?_
    have hprod := hinv.producer
    rw [ProducerOk, hp] at hprod
    have hspace := hprod.2.1
    have hmod : h.published.length % bufferSizeSlots ≠ h.popped.length % bufferSizeSlots :=
      (mod_ne_of_lt hlt (by omega)).symm
    rw [slotIndex_counter hinv.writer, hslot]
    exact Function.update_of_ne hmod _ _
  · show h.values[h.popped.length]? = some (s.buffer (slotIndex s.reader))
    rw [hslot]
    exact hinv.stored _ ⟨Nat.le_refl _, hlt⟩ hnot

theorem Inv.storeReader (hinv : Inv s h) {dst : T} {reader : UInt64}
    (hc : s.consumer = .storeReader dst reader) :
    Inv { s with reader := reader + 1, consumer := .idle (some true) }
      { h with popped := h.popped ++ [dst], popTouched := true } := by
  have hcons := hinv.consumer
  rw [ConsumerOk, hc] at hcons
  obtain ⟨rfl, hdst⟩ := hcons
  have hmore : (h.popped ++ [dst]).length = h.popped.length + 1 := List.length_append
  have hlt : h.popped.length < h.published.length := by
    have hsome := (List.getElem?_eq_some_iff.mp hdst).1
    rwa [History.values, List.length_map] at hsome
  have hroom := hinv.room
  refine ⟨hinv.writer, ?_, ?_, ?_, prefix_concat hinv.popped hdst, hinv.slots, ?_, ?_, fun e => ?_⟩
  · rw [hmore]
    exact counter_succ hinv.reader
  · rw [hmore]
    exact hlt
  · rw [hmore]
    exact hroom.trans (Nat.add_le_add_right (Nat.le_succ _) _)
  · intro n hn _
    obtain ⟨hlo, hhi⟩ := hn
    rw [hmore] at hlo
    exact hinv.stored n ⟨Nat.le_of_succ_le hlo, hhi⟩ fun ht => by
      have := ht.1
      omega
  · have hpop : h.popped.length ≤ (h.popped ++ [dst]).length := hmore ▸ Nat.le_succ _
    exact hinv.producer.frame rfl rfl rfl rfl hpop fun _ _ => rfl
  · cases e

theorem Inv.step {s' : State T} {a : Action T} (hinv : Inv s h) (hstep : step leftover s a = .ok s') :
    Inv s' (observe s a h) := by
  cases step_ok leftover hstep with
  | tryPush data hp => exact hinv.produce _ false rfl
  | pushLoadWriter hp =>
    have hprod := hinv.producer
    rw [ProducerOk, hp] at hprod
    exact hinv.produce _ h.pushTouched ⟨rfl, hprod⟩
  | pushLoadReader hp => exact hinv.pushLoadReader hp
  | writeSlot hp => exact hinv.writeSlot hp
  | storeWriter hp =>
    simp only [observe, hp]
    exact hinv.storeWriter hp
  | tryPop hc => exact hinv.consume _ false (fun _ _ e => by rw [hc] at e; cases e) rfl
  | popLoadReader hc =>
    have hcons := hinv.consumer
    rw [ConsumerOk, hc] at hcons
    exact hinv.consume _ h.popTouched (fun _ _ e => by rw [hc] at e; cases e) ⟨rfl, hcons⟩
  | popLoadWriter hc => exact hinv.popLoadWriter hc
  | readSlot hc => exact hinv.readSlot hc
  | storeReader hc =>
    simp only [observe, hc]
    exact hinv.storeReader hc

end Step

/-! ## Runs -/

section Runs
variable {T : Type} {leftover : T → T}

theorem run_inv {storage : ℕ → T} {as : List (Action T)} {s : State T} {h : History T}
    (hrun : run (track leftover) (init storage, .init) as = .ok (s, h)) : Inv s h := by
  refine run_invariant (fun sh : State T × History T => Inv sh.1 sh.2) (init_inv storage) ?_ hrun
  rintro ⟨t, k⟩ a ⟨u, k'⟩ hinv htrack
  obtain ⟨hstep, rfl⟩ := track_ok htrack
  exact hinv.step hstep

/-- What holds in every state of a run. -/
structure StateSafe (s : State T) (h : History T) : Prop where
  inOrder : h.popped <+: h.values
  bounded : (used s.writer s.reader).toNat ≤ bufferSizeSlots - 1
  noWrap : ∀ data writer, s.producer = .loadReader data writer →
    (used writer s.reader).toNat ≤ bufferSizeSlots - 1 ∧ (freeSpace (used writer s.reader)).toNat =
      bufferSizeSlots - 1 - (used writer s.reader).toNat
  pushUntouched : s.producer = .idle (some false) → h.pushTouched = false
  popUntouched : s.consumer = .idle (some false) → h.popTouched = false

/-- What holds of every step from a state of a run. -/
structure StepSafe (s : State T) (h : History T) (a : Action T) (s' : State T) : Prop where
  noOverwrite : ∀ data writer n e, a = .writeSlot → s.producer = .writeSlot data writer →
    h.Unread n → h.published[n]? = some e → e.slot ≠ slotIndex writer
  full : a = .pushLoadReader → s'.producer = .idle (some false) →
    h.published.length - h.popped.length = bufferSizeSlots - 1
  drained : a = .popLoadWriter → s'.consumer = .idle (some false) → h.popped = h.values
  stores : a ≠ .writeSlot → a ≠ .storeWriter → a ≠ .readSlot → a ≠ .storeReader →
    s'.toQueue = s.toQueue

theorem Inv.stateSafe {s : State T} {h : History T} (hinv : Inv s h) : StateSafe s h := by
  have hle := hinv.popped_le
  have hroom := hinv.room
  have hused := used_toNat hinv.writer hinv.reader hle hroom
  have hbounded : (used s.writer s.reader).toNat ≤ bufferSizeSlots - 1 := by omega
  have hprod := hinv.producer
  have hcons := hinv.consumer
  refine ⟨hinv.popped, hbounded, fun data writer hp => ?_, fun hp => ?_, fun hc => ?_⟩
  · rw [ProducerOk, hp] at hprod
    obtain ⟨rfl, -⟩ := hprod
    exact ⟨hbounded, by rw [freeSpace_toNat hinv.writer hinv.reader hle hroom, hused]⟩
  · rw [ProducerOk, hp] at hprod
    exact hprod rfl
  · rw [ConsumerOk, hc] at hcons
    exact hcons rfl

theorem Inv.stepSafe {s s' : State T} {h : History T} {a : Action T} (hinv : Inv s h)
    (hstep : SPSC.step leftover s a = .ok s') : StepSafe s h a s' := by
  have hsteps := step_ok leftover hstep
  have hle := hinv.popped_le
  have hroom := hinv.room
  have hprod := hinv.producer
  have hcons := hinv.consumer
  refine ⟨fun data writer n e _ hp hn he => ?_, fun ha hp' => ?_, fun ha hc' => ?_, ?_⟩
  · rw [ProducerOk, hp] at hprod
    obtain ⟨rfl, hspace⟩ := hprod
    rw [hinv.slots n e he, slotIndex_counter hinv.writer]
    exact slot_ne_of_unread hspace hn
  · subst ha
    cases hsteps with
    | pushLoadReader hp =>
      rw [ProducerOk, hp] at hprod
      obtain ⟨rfl, -⟩ := hprod
      dsimp only [checkSpace] at hp'
      split at hp'
      · rename_i hfull
        have hfull' := (noSpace_iff hinv.writer hinv.reader hle hroom).mp hfull
        omega
      · cases hp'
  · subst ha
    cases hsteps with
    | popLoadWriter hc =>
      rw [ConsumerOk, hc] at hcons
      obtain ⟨rfl, -⟩ := hcons
      dsimp only [checkEmpty] at hc'
      split at hc'
      · rename_i hempty
        have hall := (reader_eq_iff hinv.writer hinv.reader hle hroom).mp hempty
        refine hinv.popped.eq_of_length ?_
        rw [History.values, List.length_map, hall]
      · cases hc'
  · intro h₁ h₂ h₃ h₄
    cases hsteps with
    | writeSlot => exact absurd rfl h₁
    | storeWriter => exact absurd rfl h₂
    | readSlot => exact absurd rfl h₃
    | storeReader => exact absurd rfl h₄
    | _ => rfl

/-- **The queue is a bounded FIFO**, under every interleaving and across the wrap of its counters. -/
theorem bounded_fifo {storage : ℕ → T} {as : List (Action T)} {s : State T} {h : History T}
    (hrun : run (track leftover) (init storage, .init) as = .ok (s, h)) :
    StateSafe s h ∧ ∀ a s', step leftover s a = .ok s' → StepSafe s h a s' :=
  ⟨(run_inv hrun).stateSafe, fun _ _ hstep => (run_inv hrun).stepSafe hstep⟩

end Runs

/-- A value that is popped while the next one is being pushed. -/
theorem bounded_fifo_sample : ∃ (s : State ℕ) (h : History ℕ),
    run (track id) (init fun _ => 0, .init)
      [.tryPush 7, .pushLoadWriter, .tryPop, .pushLoadReader, .writeSlot, .popLoadReader,
        .storeWriter, .popLoadWriter, .tryPush 8, .readSlot, .pushLoadWriter, .storeReader] =
      .ok (s, h) ∧ h.popped = [7] ∧ h.popped <+: h.values := by
  obtain ⟨s, h, hrun, hpopped⟩ : ∃ (s : State ℕ) (h : History ℕ),
      run (track id) (init fun _ => 0, .init)
        [.tryPush 7, .pushLoadWriter, .tryPop, .pushLoadReader, .writeSlot, .popLoadReader,
          .storeWriter, .popLoadWriter, .tryPush 8, .readSlot, .pushLoadWriter, .storeReader] =
        .ok (s, h) ∧ h.popped = [7] := ⟨_, _, rfl, rfl⟩
  exact ⟨s, h, hrun, hpopped, (bounded_fifo hrun).1.inOrder⟩

end ItchIngestion.SPSC
