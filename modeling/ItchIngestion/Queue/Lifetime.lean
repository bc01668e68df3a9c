import ItchIngestion.Queue.BoundedFIFO

/-! # The objects in the slots

Where `T` is not trivially copyable, a push constructs an object in its slot and a pop destroys the
object that it has moved from; `~SPSCQueue` destroys what is left, from `reader_` to `writer_`. The slots
are raw storage, so nothing but the order of these calls keeps an object from being written over, used
before it is there or destroyed twice. `Objects` says which object lives in each slot, and `own` runs
the queue with them. No interleaving misuses a slot, and every value that is published is destroyed
once, by a pop or by the destructor (`objects_destroyed`).
-/
namespace ItchIngestion.SPSC
open Library
set_option autoImplicit false

/-! ## The code -/

/-- The object that lives in each slot. -/
abbrev Objects (T : Type) := ℕ → Option T

/-- An action that cannot be taken now, an object constructed over one that lives, a use of an object
that does not live. -/
inductive Misuse
  | disabled
  | overwritten
  | notAlive

section Code
variable {T : Type} (leftover : T → T)

/-- `new (s.storage) T(data)` -/
def construct (objects : Objects T) (slot : ℕ) (data : T) : Except Misuse (Objects T) :=
  match objects slot with
  | none => .ok (Function.update objects slot (some data))
  | some _ => .error .overwritten

/-- `ptr->~T()`, with the object that it ends. -/
def destroy (objects : Objects T) (slot : ℕ) : Except Misuse (T × Objects T) :=
  match objects slot with
  | some object => .ok (object, Function.update objects slot none)
  | none => .error .notAlive

/-- The constructor and destructor calls of an action. -/
def lifetimes (s : State T) (a : Action T) (objects : Objects T) : Except Misuse (Objects T) :=
  match a, s.producer, s.consumer with
  | .writeSlot, .writeSlot data writer, _ => construct objects (slotIndex writer) data
  | .readSlot, _, .readSlot reader => (destroy objects (slotIndex reader)).map Prod.snd
  | _, _, _ => .ok objects

def own (x : (State T × History T) × Objects T) (a : Action T) :
    Except Misuse ((State T × History T) × Objects T) :=
  match track leftover x.1 a, lifetimes x.1.1 a x.2 with
  | .ok sh, .ok objects => .ok (sh, objects)
  | .ok _, .error misuse => .error misuse
  | .error _, _ => .error .disabled

theorem distance_succ_lt {writer reader : UInt64} (h : reader ≠ writer) :
    (writer - (reader + 1)).toNat < (writer - reader).toNat := by
  have hne : reader.toNat ≠ writer.toNat := fun e => h (UInt64.toNat_inj.mp e)
  have hone : (1 : UInt64).toNat = 1 := rfl
  have hwriter := writer.toNat_lt
  have hreader := reader.toNat_lt
  rw [UInt64.toNat_sub, UInt64.toNat_sub, UInt64.toNat_add, hone]
  omega

/-- The loop of `~SPSCQueue`, with the objects that it ends in this order. -/
def destroyAll (writer reader : UInt64) (objects : Objects T) : Except Misuse (List T × Objects T) :=
  if reader = writer then
    .ok ([], objects)
  else
    match destroy objects (slotIndex reader) with
    | .error misuse => .error misuse
    | .ok (object, objects) => (destroyAll writer (reader + 1) objects).map fun r => (object :: r.1, r.2)
termination_by (writer - reader).toNat
decreasing_by exact distance_succ_lt ‹_›

end Code

/-! ## Which objects live -/

section Owned
variable {T : Type} {s : State T} {h : History T} {objects : Objects T}

/-- An object lives from its construction, which is before the store that publishes it, until its value
has been read, which is before the store that gives the slot back. -/
inductive Present (s : State T) (h : History T) : ℕ → T → Prop
  | unread {n : ℕ} {v : T} (hn : h.Unread n) (ht : ¬ Taken s h n) (hv : h.values[n]? = some v) :
      Present s h (n % bufferSizeSlots) v
  | constructed {v : T} {writer : UInt64} (hp : s.producer = .storeWriter v writer) :
      Present s h (slotIndex writer) v

/-- The objects that live are the unread values and what the parties hold. -/
def Owned (s : State T) (h : History T) (objects : Objects T) : Prop :=
  ∀ slot v, objects slot = some v ↔ Present s h slot v

theorem init_owned (storage : ℕ → T) : Owned (init storage) .init fun _ => none := by
  refine fun slot v => ⟨fun e => (by cases e), fun hpresent => ?_⟩
  cases hpresent with
  | unread hn => exact absurd hn.2 (Nat.not_lt_zero _)
  | constructed hp => cases hp

theorem Present.frame {s' : State T} {h' : History T} {slot : ℕ} {v : T} (hpresent : Present s h slot v)
    (hpub : h'.published = h.published) (hpop : h'.popped = h.popped)
    (hp : ∀ v writer, s.producer = .storeWriter v writer → s'.producer = .storeWriter v writer)
    (hc : ∀ v reader, s'.consumer = .storeReader v reader → s.consumer = .storeReader v reader) :
    Present s' h' slot v := by
  cases hpresent with
  | unread hn ht hv =>
    refine .unread (by rwa [History.Unread, hpub, hpop]) (fun htaken => ht ?_) (by
      rwa [History.values, hpub])
    obtain ⟨hlen, dst, reader, hcons⟩ := htaken
    exact ⟨hpop ▸ hlen, dst, reader, hc dst reader hcons⟩
  | constructed hprod => exact .constructed (hp _ _ hprod)

theorem Owned.frame {s' : State T} {h' : History T} (howned : Owned s h objects)
    (hpub : h'.published = h.published) (hpop : h'.popped = h.popped)
    (hp : ∀ v writer, s'.producer = .storeWriter v writer ↔ s.producer = .storeWriter v writer)
    (hc : ∀ v reader, s'.consumer = .storeReader v reader ↔ s.consumer = .storeReader v reader) :
    Owned s' h' objects := fun slot v => (howned slot v).trans
  ⟨fun hpresent => hpresent.frame hpub hpop (fun v w => (hp v w).mpr) fun v r => (hc v r).mp,
    fun hpresent => hpresent.frame hpub.symm hpop.symm (fun v w => (hp v w).mp) fun v r => (hc v r).mpr⟩

theorem Owned.produce (howned : Owned s h objects) {p p' : Producer T} (touched : Bool)
    (hp : s.producer = p) (hold : ∀ v writer, p ≠ .storeWriter v writer)
    (hnew : ∀ v writer, p' ≠ .storeWriter v writer) :
    Owned { s with producer := p' } { h with pushTouched := touched } objects :=
  howned.frame rfl rfl (fun v w => iff_of_false (hnew v w) (hp ▸ hold v w)) fun _ _ => Iff.rfl

theorem Owned.consume (howned : Owned s h objects) {c c' : Consumer T} (touched : Bool)
    (hc : s.consumer = c) (hold : ∀ v reader, c ≠ .storeReader v reader)
    (hnew : ∀ v reader, c' ≠ .storeReader v reader) :
    Owned { s with consumer := c' } { h with popTouched := touched } objects :=
  howned.frame rfl rfl (fun _ _ => Iff.rfl) fun v r => iff_of_false (hnew v r) (hc ▸ hold v r)

end Owned

/-! ## The steps -/

section Step
attribute [local irreducible] bufferSizeSlots
variable {T : Type} {leftover : T → T} {s : State T} {h : History T} {objects : Objects T}

theorem Owned.slot_free (howned : Owned s h objects) (hinv : Inv s h) {data : T} {writer : UInt64}
    (hp : s.producer = .writeSlot data writer) : objects (slotIndex writer) = none := by
  have hprod := hinv.producer
  rw [ProducerOk, hp] at hprod
  obtain ⟨rfl, hroom⟩ := hprod
  rw [Option.eq_none_iff_forall_ne_some]
  intro v hv
  rw [slotIndex_counter hinv.writer] at hv
  generalize hslot : h.published.length % bufferSizeSlots = slot at hv
  cases (howned slot v).mp hv with
  | unread hn => exact slot_ne_of_unread hroom hn hslot.symm
  | constructed hp' =>
    rw [hp] at hp'
    cases hp'

theorem Owned.writeSlot (howned : Owned s h objects) {data : T} {writer : UInt64}
    (hp : s.producer = .writeSlot data writer) (hfree : objects (slotIndex writer) = none) :
    Owned { s with
      buffer := Function.update s.buffer (slotIndex writer) data
      producer := .storeWriter data writer } { h with pushTouched := true }
      (Function.update objects (slotIndex writer) (some data)) := by
  have hnot : ∀ v w, s.producer ≠ .storeWriter v w := by simp [hp]
  intro slot v
  rw [Function.update_apply]
  constructor
  · intro e
    split at e
    · rename_i hslot
      obtain rfl : data = v := Option.some.inj e
      rw [hslot]
      exact .constructed rfl
    · exact ((howned slot v).mp e).frame rfl rfl (fun v w e' => absurd e' (hnot v w)) fun _ _ e' => e'
  · intro hpresent
    cases hpresent with
    | unread hn ht hv =>
      have hold := (howned _ v).mpr (.unread hn ht hv)
      split
      · rename_i hslot
        rw [hslot, hfree] at hold
        cases hold
      · exact hold
    | constructed hp' =>
      cases hp'
      exact if_pos rfl

theorem Owned.storeWriter (howned : Owned s h objects) (hinv : Inv s h) {data : T} {writer : UInt64}
    (hp : s.producer = .storeWriter data writer) :
    Owned { s with writer := writer + 1, producer := .idle (some true) }
      { h with published := h.published ++ [⟨slotIndex writer, data⟩], pushTouched := true } objects := by
  have hprod := hinv.producer
  rw [ProducerOk, hp] at hprod
  obtain ⟨rfl, -, -⟩ := hprod
  have hslot := slotIndex_counter hinv.writer
  have hlen : h.values.length = h.published.length := List.length_map ..
  rw [hslot]
  have hvalues : History.values { h with
      published := h.published ++ [⟨h.published.length % bufferSizeSlots, data⟩], pushTouched := true } =
      h.values ++ [data] := List.map_append
  have hmore : (h.published ++ [(⟨h.published.length % bufferSizeSlots, data⟩ : Entry T)]).length =
      h.published.length + 1 := List.length_append
  intro slot v
  rw [howned slot v]
  constructor
  · intro hpresent
    cases hpresent with
    | unread hn ht hv =>
      refine .unread ⟨hn.1, hn.2.trans (hmore ▸ Nat.lt_succ_self _)⟩ ht ?_
      rw [hvalues]
      exact getElem?_concat.mpr (Or.inl hv)
    | constructed hp' =>
      rw [hp] at hp'
      cases hp'
      rw [hslot]
      refine .unread ⟨hinv.popped_le, hmore ▸ Nat.lt_succ_self _⟩ (fun htaken => ?_) ?_
      · obtain ⟨hall, dst, reader, hc⟩ := htaken
        have hcons := hinv.consumer
        rw [ConsumerOk, hc] at hcons
        have hlt := (List.getElem?_eq_some_iff.mp hcons.2).1
        rw [hlen] at hlt
        exact hlt.ne hall.symm
      · rw [hvalues]
        exact getElem?_concat.mpr (Or.inr ⟨hlen.symm, rfl⟩)
  · intro hpresent
    cases hpresent with
    | unread hn ht hv =>
      rw [hvalues] at hv
      rcases getElem?_concat.mp hv with hv | ⟨rfl, rfl⟩
      · have hlt := (List.getElem?_eq_some_iff.mp hv).1
        exact .unread ⟨hn.1, hlen ▸ hlt⟩ ht hv
      · rw [hlen, ← hslot]
        exact .constructed hp
    | constructed hp' => cases hp'

theorem Owned.slot_alive (howned : Owned s h objects) (hinv : Inv s h) {reader : UInt64}
    (hc : s.consumer = .readSlot reader) :
    objects (slotIndex reader) = some (s.buffer (slotIndex reader)) := by
  have hcons := hinv.consumer
  rw [ConsumerOk, hc] at hcons
  obtain ⟨rfl, hlt⟩ := hcons
  have hnot : ¬ Taken s h h.popped.length := not_taken (by simp [hc])
  have hunread : h.Unread h.popped.length := ⟨Nat.le_refl _, hlt⟩
  rw [howned, slotIndex_counter hinv.reader]
  exact .unread hunread hnot (hinv.stored _ hunread hnot)

theorem Owned.readSlot (howned : Owned s h objects) (hinv : Inv s h) {reader : UInt64}
    (hc : s.consumer = .readSlot reader) :
    Owned { s with
      buffer := Function.update s.buffer (slotIndex reader) (leftover (s.buffer (slotIndex reader)))
      consumer := .storeReader (s.buffer (slotIndex reader)) reader } { h with popTouched := true }
      (Function.update objects (slotIndex reader) none) := by
  have hcons := hinv.consumer
  rw [ConsumerOk, hc] at hcons
  obtain ⟨rfl, hlt⟩ := hcons
  have hslot := slotIndex_counter hinv.reader
  have hroom := hinv.room
  have hnot : ∀ {n : ℕ}, ¬ Taken s h n := not_taken (by simp [hc])
  intro slot v
  rw [Function.update_apply, hslot]
  constructor
  · intro e
    split at e
    · cases e
    · rename_i hne
      cases (howned slot v).mp e with
      | unread hn ht hv => exact .unread hn (fun htaken => hne (congrArg (· % _) htaken.1)) hv
      | constructed hp => exact .constructed hp
  · intro hpresent
    cases hpresent with
    | unread hn ht hv =>
      rename_i n
      have hne : n ≠ h.popped.length := fun e => ht ⟨e, _, _, rfl⟩
      obtain ⟨hlo, hhi⟩ : h.popped.length ≤ n ∧ n < h.published.length := hn
      rw [if_neg (mod_ne_of_lt (by omega) (by omega)).symm]
      exact (howned _ v).mpr (.unread ⟨hlo, hhi⟩ hnot hv)
    | constructed hp =>
      have hp' : s.producer = .storeWriter v _ := hp
      have hprod := hinv.producer
      rw [ProducerOk, hp'] at hprod
      obtain ⟨rfl, hspace, -⟩ := hprod
      rw [slotIndex_counter hinv.writer, if_neg (mod_ne_of_lt hlt (by omega)).symm,
        ← slotIndex_counter hinv.writer]
      exact (howned _ v).mpr (.constructed hp')

theorem Owned.storeReader (howned : Owned s h objects) {dst : T} {reader : UInt64}
    (hc : s.consumer = .storeReader dst reader) :
    Owned { s with reader := reader + 1, consumer := .idle (some true) }
      { h with popped := h.popped ++ [dst], popTouched := true } objects := by
  have hmore : (h.popped ++ [dst]).length = h.popped.length + 1 := List.length_append
  intro slot v
  rw [howned slot v]
  constructor
  · intro hpresent
    cases hpresent with
    | unread hn ht hv =>
      have hne := fun e => ht ⟨e, dst, reader, hc⟩
      refine .unread ⟨?_, hn.2⟩ (fun htaken => ?_) hv
      · rw [hmore]
        exact Nat.lt_of_le_of_ne hn.1 (Ne.symm hne)
      · obtain ⟨-, _, _, hc'⟩ := htaken
        cases hc'
    | constructed hp => exact .constructed hp
  · intro hpresent
    cases hpresent with
    | unread hn ht hv =>
      obtain ⟨hlo, hhi⟩ := hn
      rw [hmore] at hlo
      exact .unread ⟨Nat.le_of_succ_le hlo, hhi⟩ (fun htaken => Nat.ne_of_lt hlo htaken.1.symm) hv
    | constructed hp => exact .constructed hp

theorem construct_free {slot : ℕ} (hfree : objects slot = none) (data : T) :
    construct objects slot data = .ok (Function.update objects slot (some data)) := by
  rw [construct, hfree]

theorem destroy_alive {slot : ℕ} {object : T} (halive : objects slot = some object) :
    destroy objects slot = .ok (object, Function.update objects slot none) := by
  rw [destroy, halive]

theorem Owned.step {s' : State T} {a : Action T} (howned : Owned s h objects) (hinv : Inv s h)
    (hstep : SPSC.step leftover s a = .ok s') :
    ∃ objects', lifetimes s a objects = .ok objects' ∧ Owned s' (observe s a h) objects' := by
  cases step_ok leftover hstep with
  | tryPush data hp => exact ⟨_, rfl, howned.produce false hp (by simp) (by simp)⟩
  | pushLoadWriter hp => exact ⟨_, rfl, howned.produce h.pushTouched hp (by simp) (by simp)⟩
  | pushLoadReader hp =>
    refine ⟨_, rfl, howned.produce h.pushTouched hp (by simp) ?_⟩
    intro v w e
    unfold checkSpace at e
    split at e <;> cases e
  | writeSlot hp =>
    have hfree := howned.slot_free hinv hp
    simp only [lifetimes, hp]
    exact ⟨_, construct_free hfree _, howned.writeSlot hp hfree⟩
  | storeWriter hp =>
    simp only [observe, hp]
    exact ⟨_, rfl, howned.storeWriter hinv hp⟩
  | tryPop hc => exact ⟨_, rfl, howned.consume false hc (by simp) (by simp)⟩
  | popLoadReader hc => exact ⟨_, rfl, howned.consume h.popTouched hc (by simp) (by simp)⟩
  | popLoadWriter hc =>
    refine ⟨_, rfl, howned.consume h.popTouched hc (by simp) ?_⟩
    intro v r e
    unfold checkEmpty at e
    split at e <;> cases e
  | readSlot hc =>
    simp only [lifetimes, hc]
    rw [destroy_alive (howned.slot_alive hinv hc)]
    exact ⟨_, rfl, howned.readSlot hinv hc⟩
  | storeReader hc =>
    simp only [observe, hc]
    exact ⟨_, rfl, howned.storeReader hc⟩

end Step

/-! ## The destructor -/

section Destructor
attribute [local irreducible] bufferSizeSlots
variable {T : Type}

/-- The objects that live are those of the values from number `C` on. -/
def Waiting (values : List T) (C : ℕ) (objects : Objects T) : Prop :=
  ∀ slot v, objects slot = some v ↔ ∃ n, C ≤ n ∧ n % bufferSizeSlots = slot ∧ values[n]? = some v

theorem Owned.waiting {s : State T} {h : History T} {objects : Objects T} (howned : Owned s h objects)
    {pushed popped : Option Bool} (hp : s.producer = .idle pushed) (hc : s.consumer = .idle popped) :
    Waiting h.values h.popped.length objects := by
  intro slot v
  rw [howned slot v]
  constructor
  · intro hpresent
    cases hpresent with
    | unread hn _ hv => exact ⟨_, hn.1, rfl, hv⟩
    | constructed hp' =>
      rw [hp] at hp'
      cases hp'
  · rintro ⟨n, hle, rfl, hv⟩
    have hlt := (List.getElem?_eq_some_iff.mp hv).1
    rw [History.values, List.length_map] at hlt
    exact .unread ⟨hle, hlt⟩ (not_taken (by simp [hc])) hv

theorem Waiting.destroyed {values : List T} {C : ℕ} {objects : Objects T}
    (hwaiting : Waiting values C objects) (hroom : values.length ≤ C + (bufferSizeSlots - 1)) :
    Waiting values (C + 1) (Function.update objects (C % bufferSizeSlots) none) := by
  intro slot v
  rw [Function.update_apply]
  constructor
  · intro e
    split at e
    · cases e
    · rename_i hne
      obtain ⟨n, hle, rfl, hv⟩ := (hwaiting slot v).mp e
      refine ⟨n, Nat.lt_of_le_of_ne hle fun heq => hne ?_, rfl, hv⟩
      rw [heq]
  · rintro ⟨n, hle, rfl, hv⟩
    have hlt := (List.getElem?_eq_some_iff.mp hv).1
    rw [if_neg (mod_ne_of_lt hle (by omega)).symm]
    exact (hwaiting _ v).mpr ⟨n, Nat.le_of_succ_le hle, rfl, hv⟩

/-- **The destructor ends each value that was not popped**, in order, and leaves raw storage. -/
theorem destroyAll_waiting {values : List T} {writer : UInt64}
    (hw : writer.toNat = values.length % 2 ^ 64) {k : ℕ} : ∀ {C : ℕ} {reader : UInt64} {objects : Objects T},
    reader.toNat = C % 2 ^ 64 → C + k = values.length → k ≤ bufferSizeSlots - 1 →
    Waiting values C objects →
    destroyAll writer reader objects = .ok (values.drop C, fun _ => none) := by
  induction k with
  | zero =>
    intro C reader objects hr hC _ hwaiting
    have hend : reader = writer := UInt64.toNat_inj.mp (by rw [hr, hw, ← hC, Nat.add_zero])
    have hnone : objects = fun _ => none := by
      funext slot
      rw [Option.eq_none_iff_forall_ne_some]
      intro v hv
      obtain ⟨n, hle, -, hn⟩ := (hwaiting slot v).mp hv
      have hlt := (List.getElem?_eq_some_iff.mp hn).1
      omega
    rw [destroyAll, if_pos hend, hnone, List.drop_eq_nil_of_le (by omega)]
  | succ k ih =>
    intro C reader objects hr hC hk hwaiting
    have hlt : C < values.length := by omega
    have hmore : reader ≠ writer := fun e => by
      have heq := (reader_eq_iff hw hr hlt.le (by omega)).mp e
      omega
    have hslot : slotIndex reader = C % bufferSizeSlots := slotIndex_counter hr
    have halive : objects (slotIndex reader) = some values[C] :=
      (hwaiting _ _).mpr ⟨C, Nat.le_refl C, hslot.symm, List.getElem?_eq_getElem hlt⟩
    have hrest := ih (counter_succ hr) (by omega) (by omega) (hwaiting.destroyed (by omega))
    rw [destroyAll, if_neg hmore, destroy_alive halive, hslot]
    dsimp only
    rw [hrest, List.drop_eq_getElem_cons hlt]
    rfl

end Destructor

/-! ## Runs -/

section Runs
variable {T : Type} {leftover : T → T}

theorem run_owned {as : List (Action T)} : ∀ {s s' : State T} {h h' : History T} {objects : Objects T},
    Inv s h → Owned s h objects → run (track leftover) (s, h) as = .ok (s', h') →
    ∃ objects', run (own leftover) ((s, h), objects) as = .ok ((s', h'), objects') ∧
      Inv s' h' ∧ Owned s' h' objects' := by
  induction as with
  | nil =>
    intro s s' h h' objects hinv howned hrun
    cases hrun
    exact ⟨objects, rfl, hinv, howned⟩
  | cons a as ih =>
    intro s s' h h' objects hinv howned hrun
    obtain ⟨⟨t, k⟩, htrack, hrest⟩ := run_cons_ok.mp hrun
    obtain ⟨hstep, rfl⟩ := track_ok htrack
    obtain ⟨objects', hlife, howned'⟩ := howned.step hinv hstep
    obtain ⟨objects'', hown, hfinal⟩ := ih (hinv.step hstep) howned' hrest
    have hone : own leftover ((s, h), objects) a = .ok ((t, observe s a h), objects') := by
      rw [own, htrack, hlife]
    exact ⟨objects'', run_cons_ok.mpr ⟨_, hone, hown⟩, hfinal⟩

/-- **Every value is destroyed once.** No interleaving of the two parties constructs an object over one
that lives or uses one that does not; and once both have returned, the destructor destroys, in order,
the published values that were not popped, and nothing lives any more. -/
theorem objects_destroyed {storage : ℕ → T} {as : List (Action T)} {s : State T} {h : History T}
    (hrun : run (track leftover) (init storage, .init) as = .ok (s, h)) : ∃ objects,
    run (own leftover) ((init storage, .init), fun _ => none) as = .ok ((s, h), objects) ∧
    ∀ pushed popped, s.producer = .idle pushed → s.consumer = .idle popped → ∃ left,
      destroyAll s.writer s.reader objects = .ok (left, fun _ => none) ∧ h.values = h.popped ++ left := by
  obtain ⟨objects, hown, hinv, howned⟩ := run_owned (init_inv storage) (init_owned storage) hrun
  refine ⟨objects, hown, fun pushed popped hp hc => ?_⟩
  have hlen : h.values.length = h.published.length := List.length_map ..
  have hle := hinv.popped_le
  have hroom := hinv.room
  have hdestroy := destroyAll_waiting (by rw [hlen]; exact hinv.writer)
    (k := h.published.length - h.popped.length) hinv.reader (by omega) (by omega) (howned.waiting hp hc)
  refine ⟨_, hdestroy, ?_⟩
  obtain ⟨rest, hrest⟩ := hinv.popped
  rw [← hrest, List.drop_left]

end Runs

/-- Two values pushed, one popped: the destructor has the other one. -/
theorem objects_destroyed_sample : ∃ (s : State ℕ) (objects : Objects ℕ),
    destroyAll s.writer s.reader objects = .ok ([8], fun _ => none) := by
  obtain ⟨s, h, hrun, hp, hc, hvalues, hpopped⟩ : ∃ (s : State ℕ) (h : History ℕ),
      run (track fun _ => 0) (init fun _ => 0, .init)
        [.tryPush 7, .pushLoadWriter, .pushLoadReader, .writeSlot, .storeWriter, .tryPop, .tryPush 8,
          .popLoadReader, .pushLoadWriter, .popLoadWriter, .pushLoadReader, .readSlot, .writeSlot,
          .storeReader, .storeWriter] = .ok (s, h) ∧ s.producer = .idle (some true) ∧
      s.consumer = .idle (some true) ∧ h.values = [7, 8] ∧ h.popped = [7] :=
    ⟨_, _, rfl, rfl, rfl, rfl, rfl⟩
  obtain ⟨objects, -, hall⟩ := objects_destroyed hrun
  obtain ⟨left, hdestroy, hleft⟩ := hall _ _ hp hc
  rw [hvalues, hpopped] at hleft
  obtain rfl : [8] = left := List.tail_eq_of_cons_eq hleft
  exact ⟨s, objects, hdestroy⟩

end ItchIngestion.SPSC
