import ItchIngestion.Parser.Decode

/-! # The parse loop (`ItchParser::parse`)

The loop walks over the frames of a buffer: two bytes of size, a type byte, a body. The type byte
picks an entry of a table of 256 functions; it is a signed `char`, so the bytes from 128 on become
indices far outside the table (`charIndex`). A handler is generic: it has a state, a function around
every frame, and a `handle` for some of the message types.

`parseLoop` runs on fuel, one unit for a byte left; `loop` supplies it, and `loop_eq` is the `while`
of the source, without fuel. `Reaches` collects the heads of the iterations.
-/
namespace ItchIngestion.ITCH
open Library
set_option autoImplicit false

/-! ## Handlers and the dispatch table -/

/-- The handler that the parser is instantiated with; `handle` is there for the types it overloads. -/
structure SpecificHandler (σ : Type) where
  handleBefore : σ → σ
  handle : (ty : MessageType) → Option (ty.Msg → σ → σ)
  handleAfter : σ → σ

/-- How the parser ends: it returns, throws, or runs into undefined behaviour. -/
inductive Outcome (σ : Type)
  | returned (s : σ)
  | threw (what : String) (s : σ)
  | undefinedBehaviour (s : σ)

/-- The functions a table entry can point to. -/
inductive ParseFn (σ : Type)
  | ignoreMessage
  | badType
  | parseAndHandle (ty : MessageType) (handle : ty.Msg → σ → σ)

/-- The type bytes of the first pass over the table. -/
def messageTypeChars : List UInt8 :=
  ['S', 'R', 'H', 'Y', 'L', 'V', 'W', 'K', 'J', 'h',
   'A', 'F', 'E', 'C', 'X', 'D', 'U',
   'P', 'Q', 'B', 'I', 'O'].map Char.toUInt8

/-- `is_valid_message_type` -/
def isValidMessageType (c : UInt8) : Bool := messageTypeChars.any (· == c)

/-- The text of the exception. -/
def unknownMessageType (c : UInt8) : String :=
  "Unknown message type '" ++ String.singleton (Char.ofUInt8 c) ++ "'"

/-- The value of a signed `char`, converted to `size_t`. -/
def charIndex (c : UInt8) : ℕ := if c < 128 then c.toNat else 2 ^ 64 - 256 + c.toNat

/-- What the top of an iteration finds. -/
inductive Header
  | done
  | undefinedBehaviour
  | frame (size : UInt16) (rawType : UInt8)

/-- The head of the loop: is there a complete frame at `src`? -/
def header (mem : Mem) (e src : ℕ) : Header :=
  if (e : ℤ) - src ≥ 3 then
    match loadBe16 mem src with
    | none => .undefinedBehaviour
    | some size =>
      if (e : ℤ) - src < 2 + size.toNat then .done
      else
        match mem (src + 2) with
        | none => .undefinedBehaviour
        | some rawType => .frame size rawType
  else .done

section Code
variable {σ : Type} (h : SpecificHandler σ) (junk : (ty : MessageType) → ty.Msg) (mem : Mem)

/-- The first pass: known types are ignored, all others are bad. -/
def baseDispatch : List (ParseFn σ) :=
  (List.range 256).map fun i =>
    if isValidMessageType (UInt8.ofNat i) then .ignoreMessage else .badType

/-- The second pass: a type that the handler has an overload for is parsed and handled. -/
def installHandle (table : List (ParseFn σ)) (ty : MessageType) : List (ParseFn σ) :=
  match h.handle ty with
  | some handle => table.set ty.raw.toNat (.parseAndHandle ty handle)
  | none => table

/-- `make_dispatch`: every type gets the default, then the handled ones their handler. -/
def makeDispatch : List (ParseFn σ) := MessageType.messageList.foldl (installHandle h) baseDispatch

/-- The call through an entry. -/
def ParseFn.call (src : ℕ) (s : σ) : ParseFn σ → Outcome σ
  | .ignoreMessage => .returned s
  | .badType =>
    match mem src with
    | none => .undefinedBehaviour s
    | some c => .threw (unknownMessageType c) s
  | .parseAndHandle ty handle =>
    match parseItch ty.layout (junk ty) mem src with
    | none => .undefinedBehaviour s
    | some m => .returned (handle m s)

/-- The call through the entry of a type byte. -/
def dispatch (rawType : UInt8) (src : ℕ) (s : σ) : Outcome σ :=
  match (makeDispatch h)[charIndex rawType]? with
  | none => .undefinedBehaviour s
  | some fn => fn.call junk mem src s

/-- The loop of `parse`, with fuel. -/
def parseLoop (e : ℕ) : ℕ → ℕ → σ → Outcome σ
  | 0, _, s => .returned s
  | fuel + 1, src, s =>
    match header mem e src with
    | .done => .returned s
    | .undefinedBehaviour => .undefinedBehaviour s
    | .frame size rawType =>
      match dispatch h junk mem rawType (src + 3) (h.handleBefore s) with
      -- `src += size - 1` in `int`: a size of zero moves the cursor back by one
      | .returned s => parseLoop e fuel (src + 3 + size.toNat - 1) (h.handleAfter s)
      | stop => stop

/-- Every round takes two bytes at least, so the bytes that are left are fuel enough. -/
def loop (e src : ℕ) (s : σ) : Outcome σ := parseLoop h junk mem e (e - src) src s

/-- `ItchParser::parse` -/
def parse (src len : ℕ) (s : σ) : Outcome σ := loop h junk mem (src + len) src s

/-- The heads of the iterations that a run of the loop comes to. -/
inductive Reaches (e src₀ : ℕ) (s₀ : σ) : ℕ → σ → Prop
  | start : Reaches e src₀ s₀ src₀ s₀
  | next {src : ℕ} {s s' : σ} {size : UInt16} {rawType : UInt8} (hreach : Reaches e src₀ s₀ src s)
      (hframe : header mem e src = .frame size rawType)
      (hcall : dispatch h junk mem rawType (src + 3) (h.handleBefore s) = .returned s') :
      Reaches e src₀ s₀ (src + 3 + size.toNat - 1) (h.handleAfter s')

end Code

/-! ## The loop without fuel -/

theorem header_frame_le {mem : Mem} {e src : ℕ} {size : UInt16} {rawType : UInt8}
    (hframe : header mem e src = .frame size rawType) :
    src + 3 ≤ e ∧ src + 2 + size.toNat ≤ e := by
  unfold header at hframe
  split at hframe
  · split at hframe
    · cases hframe
    · split at hframe
      · cases hframe
      · split at hframe
        · cases hframe
        · cases hframe
          omega
  · cases hframe

theorem header_end {mem : Mem} {e src : ℕ} (h : e < src + 3) : header mem e src = .done :=
  if_neg (by omega)

section Loop
variable {σ : Type} {h : SpecificHandler σ} {junk : (ty : MessageType) → ty.Msg} {mem : Mem} {e : ℕ}

/-- More fuel than bytes changes nothing: every frame takes at least two bytes. -/
theorem parseLoop_succ (fuel src : ℕ) (s : σ) (hfuel : e - src ≤ fuel) :
    parseLoop h junk mem e (fuel + 1) src s = parseLoop h junk mem e fuel src s := by
  induction fuel generalizing src s with
  | zero =>
    have hend : header mem e src = .done := header_end (by omega)
    unfold parseLoop
    rw [hend]
  | succ fuel ih =>
    rw [parseLoop, parseLoop]
    cases hframe : header mem e src with
    | done => rfl
    | undefinedBehaviour => rfl
    | frame size rawType =>
      have hle := header_frame_le hframe
      dsimp only
      cases dispatch h junk mem rawType (src + 3) (h.handleBefore s) with
      | returned s' => exact ih _ _ (by omega)
      | threw what s' => rfl
      | undefinedBehaviour s' => rfl

theorem parseLoop_fuel {fuel src : ℕ} (s : σ) (hfuel : e - src ≤ fuel) :
    parseLoop h junk mem e fuel src s = loop h junk mem e src s := by
  induction hfuel with
  | refl => rfl
  | step hle ih => rw [parseLoop_succ _ _ _ hle, ih]

/-- **The `while` of the source.** -/
theorem loop_eq (src : ℕ) (s : σ) : loop h junk mem e src s =
    match header mem e src with
    | .done => .returned s
    | .undefinedBehaviour => .undefinedBehaviour s
    | .frame size rawType =>
      match dispatch h junk mem rawType (src + 3) (h.handleBefore s) with
      | .returned s => loop h junk mem e (src + 3 + size.toNat - 1) (h.handleAfter s)
      | stop => stop := by
  rw [← parseLoop_fuel s (Nat.le_succ (e - src)), parseLoop]
  cases hframe : header mem e src with
  | done => rfl
  | undefinedBehaviour => rfl
  | frame size rawType =>
    have hle := header_frame_le hframe
    dsimp only
    cases dispatch h junk mem rawType (src + 3) (h.handleBefore s) with
    | returned s' => exact parseLoop_fuel _ (by omega)
    | threw what s' => rfl
    | undefinedBehaviour s' => rfl

end Loop

/-! ## The dispatch table -/

namespace MessageType

theorem raw_injective : Function.Injective raw := by
  intro ty ty'
  cases ty <;> cases ty' <;> decide

theorem mem_messageList (ty : MessageType) : ty ∈ messageList := by cases ty <;> decide

theorem raw_lt (ty : MessageType) : ty.raw < 128 := by cases ty <;> decide

/-- The type of a type byte. -/
def ofRaw (c : UInt8) : Option MessageType := messageList.find? fun ty => ty.raw == c

theorem ofRaw_eq_some {c : UInt8} {ty : MessageType} : ofRaw c = some ty ↔ ty.raw = c := by
  constructor
  · intro h
    simpa using List.find?_some h
  · rintro rfl
    cases hfind : ofRaw ty.raw with
    | none =>
      have hno := List.find?_eq_none.mp hfind ty ty.mem_messageList
      simp at hno
    | some ty' =>
      have hraw : ty'.raw = ty.raw := by simpa using List.find?_some hfind
      rw [raw_injective hraw]

theorem messageTypeChars_eq : messageTypeChars =
    [systemEvent, stockDirectory, tradingAction, regSho, marketParticipantPos, mwcbDeclineLevel,
      mwcbStatus, ipoQuotationPeriodUpd, luldAuctionCollar, operationalHalt, addOrderNoMpid,
      addOrderMpid, orderExecuted, orderExecutedPrice, orderCancel, orderDelete, orderReplace,
      tradeMessageNonCross, tradeMessageCross, brokenTrade, noii, directListingCapitalRaise].map
      raw := rfl

theorem isValidMessageType_iff (c : UInt8) : isValidMessageType c ↔ (ofRaw c).isSome := by
  rw [isValidMessageType, List.any_eq_true, messageTypeChars_eq]
  constructor
  · rintro ⟨x, hx, hxc⟩
    obtain rfl := eq_of_beq hxc
    obtain ⟨ty, -, hty⟩ := List.mem_map.mp hx
    rw [ofRaw_eq_some.mpr hty]
    rfl
  · intro h
    obtain ⟨ty, hty⟩ := Option.isSome_iff_exists.mp h
    rw [ofRaw_eq_some] at hty
    refine ⟨ty.raw, List.mem_map_of_mem ?_, by simp [hty]⟩
    cases ty <;> decide

end MessageType

section Dispatch
variable {σ : Type} (h : SpecificHandler σ)

/-- What a type byte selects. -/
def selected (c : UInt8) : ParseFn σ :=
  match MessageType.ofRaw c with
  | none => .badType
  | some ty =>
    match h.handle ty with
    | none => .ignoreMessage
    | some handle => .parseAndHandle ty handle

theorem baseDispatch_getElem? (c : UInt8) : (baseDispatch : List (ParseFn σ))[c.toNat]? =
    some (if (MessageType.ofRaw c).isSome then .ignoreMessage else .badType) := by
  rw [baseDispatch, List.getElem?_map, List.getElem?_range c.toNat_lt, Option.map_some,
    UInt8.ofNat_toNat]
  simp only [MessageType.isValidMessageType_iff]

theorem length_installHandle (table : List (ParseFn σ)) (ty : MessageType) :
    (installHandle h table ty).length = table.length := by
  unfold installHandle
  split
  · exact List.length_set
  · rfl

theorem foldl_installHandle_other (tys : List MessageType) (table : List (ParseFn σ)) {i : ℕ}
    (hno : ∀ ty ∈ tys, (h.handle ty).isSome → ty.raw.toNat ≠ i) :
    (tys.foldl (installHandle h) table)[i]? = table[i]? := by
  induction tys generalizing table with
  | nil => rfl
  | cons ty tys ih =>
    rw [List.foldl_cons, ih _ fun ty' hty' => hno ty' (List.mem_cons_of_mem ty hty')]
    unfold installHandle
    split
    · rename_i handle hhandle
      exact List.getElem?_set_ne (hno ty List.mem_cons_self (by rw [hhandle]; rfl))
    · rfl

theorem foldl_installHandle {ty : MessageType} {handle : ty.Msg → σ → σ}
    (hhandle : h.handle ty = some handle) (tys : List MessageType) (hmem : ty ∈ tys)
    (table : List (ParseFn σ)) (hlen : table.length = 256) :
    (tys.foldl (installHandle h) table)[ty.raw.toNat]? = some (.parseAndHandle ty handle) := by
  induction tys generalizing table with
  | nil => cases hmem
  | cons ty' tys ih =>
    rw [List.foldl_cons]
    by_cases htail : ty ∈ tys
    · exact ih htail _ (by rw [length_installHandle, hlen])
    · obtain rfl : ty = ty' := (List.mem_cons.mp hmem).resolve_right htail
      rw [foldl_installHandle_other, installHandle, hhandle]
      · exact List.getElem?_set_self (by rw [hlen]; exact ty.raw.toNat_lt)
      · intro ty' hty' _ hraw
        exact htail (MessageType.raw_injective (UInt8.toNat_inj.mp hraw) ▸ hty')

theorem length_foldl_installHandle (tys : List MessageType) (table : List (ParseFn σ)) :
    (tys.foldl (installHandle h) table).length = table.length := by
  induction tys generalizing table with
  | nil => rfl
  | cons ty tys ih => rw [List.foldl_cons, ih, length_installHandle]

theorem length_makeDispatch : (makeDispatch h).length = 256 := by
  rw [makeDispatch, length_foldl_installHandle, baseDispatch, List.length_map, List.length_range]

theorem makeDispatch_getElem? (c : UInt8) : (makeDispatch h)[c.toNat]? = some (selected h c) := by
  have hbase : (baseDispatch : List (ParseFn σ)).length = 256 := by
    rw [baseDispatch, List.length_map, List.length_range]
  unfold makeDispatch selected
  cases hty : MessageType.ofRaw c with
  | none =>
    rw [foldl_installHandle_other, baseDispatch_getElem?, hty]
    · rfl
    · intro ty _ _ hraw
      rw [MessageType.ofRaw_eq_some.mpr (UInt8.toNat_inj.mp hraw)] at hty
      cases hty
  | some ty =>
    obtain rfl := MessageType.ofRaw_eq_some.mp hty
    dsimp only
    cases hhandle : h.handle ty with
    | none =>
      rw [foldl_installHandle_other, baseDispatch_getElem?, hty]
      · rfl
      · intro ty' _ hsome hraw
        rw [MessageType.raw_injective (UInt8.toNat_inj.mp hraw), hhandle] at hsome
        cases hsome
    | some handle => exact foldl_installHandle h hhandle _ ty.mem_messageList _ hbase

variable (junk : (ty : MessageType) → ty.Msg) (mem : Mem) (src : ℕ) (s : σ)

/-- **A byte below 128 calls what it selects; any other byte misses the table.** -/
theorem dispatch_eq (c : UInt8) : dispatch h junk mem c src s =
    if c < 128 then (selected h c).call junk mem src s else .undefinedBehaviour s := by
  have hlen := length_makeDispatch h
  by_cases hc : c < 128
  · rw [dispatch, charIndex, if_pos hc, if_pos hc, makeDispatch_getElem?]
  · rw [dispatch, charIndex, if_neg hc, if_neg hc, List.getElem?_eq_none (by omega)]

end Dispatch

end ItchIngestion.ITCH
