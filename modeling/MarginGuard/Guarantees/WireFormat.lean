import MarginGuard.Source.Script
import MarginGuard.Source.Wire

/-!
# What a client reads off the wire

With a serializer that writes what `RiskEvent` derives, the payload of an event is
lossless: a client that looks its members up by name gets the event back, whatever
characters the identifiers hold and whatever the amounts are (`outcome_readable`).
The tag it finds is the `kind` sent beside it. `compact` is such a serializer.
-/
namespace MarginGuard.Guarantees
open Foundation Source

/-! ## Reading members by name -/

def textMember (name : String) (members : List Json.Member) : Option String :=
  match members.lookup name.toList with
  | some (.text s) => some (String.ofList s)
  | _ => none

def numberMember (name : String) (members : List Json.Member) : Option Int :=
  match members.lookup name.toList with
  | some (.number n) => some n
  | _ => none

def readAccount (members : List Json.Member) : Option AccountId :=
  (textMember "account" members).bind fun s => (AccountId.new s).toOption

def readSymbol (members : List Json.Member) : Option Symbol :=
  (textMember "symbol" members).bind fun s => (Symbol.new s).toOption

def readAmount (name : String) (members : List Json.Member) : Option Usd :=
  ((numberMember name members).bind SignedInt.tryFrom).map Usd.mk

def readRate (members : List Json.Member) : Option I64 :=
  (numberMember "funding_rate_bps" members).bind SignedInt.tryFrom

def readSide (members : List Json.Member) : Option Side :=
  (textMember "side" members).bind fun s => List.lookup s [("Long", .long), ("Short", .short)]

def readReason (members : List Json.Member) : Option LiquidationReason :=
  (textMember "reason" members).bind fun s =>
    List.lookup s [("MaintenanceBreach", .maintenanceBreach), ("Bankruptcy", .bankruptcy)]

/-- The members of a liquidation. -/
def readLiquidation (members : List Json.Member) : Option Liquidation := do
  let account ← readAccount members
  let symbol ← readSymbol members
  let reason ← readReason members
  let closedNotional ← readAmount "closed_notional" members
  let insuranceDraw ← readAmount "insurance_draw" members
  let socializedLoss ← readAmount "socialized_loss" members
  return { account, symbol, reason, closedNotional, insuranceDraw, socializedLoss }

/-- How the members of each kind of event are read. -/
def eventReaders : List (String × (List Json.Member → Option RiskEvent)) :=
  [("position_opened", fun members => do
      let account ← readAccount members
      let symbol ← readSymbol members
      let side ← readSide members
      let notional ← readAmount "notional" members
      return .positionOpened account symbol side notional),
    ("position_closed", fun members => do
      let account ← readAccount members
      let symbol ← readSymbol members
      let realizedPnl ← readAmount "realized_pnl" members
      return .positionClosed account symbol realizedPnl),
    ("market_updated", fun members => do
      let symbol ← readSymbol members
      let markPrice ← numberMember "mark_price" members
      let fundingRateBps ← readRate members
      return .marketUpdated symbol markPrice fundingRateBps),
    ("funding_settled", fun members => do
      let account ← readAccount members
      let symbol ← readSymbol members
      let amount ← readAmount "amount" members
      return .fundingSettled account symbol amount),
    ("liquidated", fun members => (readLiquidation members).map .liquidated),
    ("auto_deleveraged", fun members => do
      let symbol ← readSymbol members
      let socializedLoss ← readAmount "socialized_loss" members
      return .autoDeleveraged symbol socializedLoss)]

/-- The tag of a payload. -/
def readTag (parse : String → Option (List Json.Member)) (json : String) : Option String :=
  (parse json).bind (textMember "event")

/-- The event of a payload. -/
def readEvent (parse : String → Option (List Json.Member)) (json : String) : Option RiskEvent :=
  (parse json).bind fun members =>
    (textMember "event" members).bind fun tag =>
      (eventReaders.lookup tag).bind fun read => read members

/-! ## The values of members -/

/-- A text found under its name. -/
theorem textMember_of_lookup {name value : String} {members : List Json.Member}
    (found : members.lookup name.toList = some (.text value.toList)) :
    textMember name members = some value := by
  rw [textMember, found]
  exact congrArg some String.ofList_toList

theorem numberMember_of_lookup {name : String} {n : Int} {members : List Json.Member}
    (found : members.lookup name.toList = some (.number n)) :
    numberMember name members = some n := by
  rw [numberMember, found]

theorem tryFrom_toInt {w : Nat} (n : SignedInt w) : SignedInt.tryFrom n.toInt = some n := by
  rw [SignedInt.tryFrom, dif_pos n.fits]

theorem readAccount_of_lookup (account : AccountId) {members : List Json.Member}
    (found : members.lookup "account".toList = some (.text account.asStr.toList)) :
    readAccount members = some account := by
  rw [readAccount, textMember_of_lookup found, Option.bind_some, AccountId.new_eq_ok.mpr rfl]
  rfl

theorem readSymbol_of_lookup (symbol : Symbol) {members : List Json.Member}
    (found : members.lookup "symbol".toList = some (.text symbol.asStr.toList)) :
    readSymbol members = some symbol := by
  rw [readSymbol, textMember_of_lookup found, Option.bind_some, Symbol.new_eq_ok.mpr rfl]
  rfl

theorem readAmount_of_lookup (name : String) (amount : Usd) {members : List Json.Member}
    (found : members.lookup name.toList = some (.number amount.toInt)) :
    readAmount name members = some amount := by
  rw [readAmount, numberMember_of_lookup found, Option.bind_some, Usd.toInt, tryFrom_toInt]
  rfl

theorem readRate_of_lookup (rate : I64) {members : List Json.Member}
    (found : members.lookup "funding_rate_bps".toList = some (.number rate.toInt)) :
    readRate members = some rate := by
  rw [readRate, numberMember_of_lookup found, Option.bind_some, tryFrom_toInt]

theorem readSide_of_lookup (side : Side) {members : List Json.Member}
    (found : members.lookup "side".toList = some (.text side.variant.toList)) :
    readSide members = some side := by
  rw [readSide, textMember_of_lookup found, Option.bind_some]
  cases side <;> rfl

theorem readReason_of_lookup (reason : LiquidationReason) {members : List Json.Member}
    (found : members.lookup "reason".toList = some (.text reason.variant.toList)) :
    readReason members = some reason := by
  rw [readReason, textMember_of_lookup found, Option.bind_some]
  cases reason <;> rfl

/-! ## Payloads -/

/-- The words of a variant's name. -/
def variantWords : RiskEvent → List (List Char)
  | .positionOpened _ _ _ _ => ["position".toList, "opened".toList]
  | .positionClosed _ _ _ => ["position".toList, "closed".toList]
  | .marketUpdated _ _ _ => ["market".toList, "updated".toList]
  | .fundingSettled _ _ _ => ["funding".toList, "settled".toList]
  | .liquidated _ => ["liquidated".toList]
  | .autoDeleveraged _ _ => ["auto".toList, "deleveraged".toList]

/-- The name written is the one `kind` returns. -/
theorem rename_variant {rename : String → String} (snakeCase : SnakeCase rename) (event : RiskEvent) :
    rename event.variant = event.kind := by
  have lower : ∀ word ∈ variantWords event, word ≠ [] ∧ word.all Char.isLower = true := by
    cases event <;> simp only [variantWords] <;> decide
  have joined : String.ofList ((variantWords event).flatMap capitalize) = event.variant := by
    cases event <;> simp only [variantWords, RiskEvent.variant] <;> rfl
  rw [← joined, snakeCase _ lower]
  cases event <;> simp only [variantWords, RiskEvent.kind] <;> rfl

section Payload
variable {rename : String → String} {serialize : RiskEvent → Option String}
  {parse : String → Option (List Json.Member)}

/-- The members of a payload. -/
theorem exists_members (derived : DerivedJson rename serialize parse) (event : RiskEvent) :
    ∃ members, parse (RiskEventDto.of serialize event).json = some members ∧
      textMember "event" members = some event.kind ∧
      ∀ field ∈ event.fields, members.lookup field.1 = some field.2 := by
  obtain ⟨json, members, written, parsed, tag, fields⟩ := derived.written event
  refine ⟨members, ?_, ?_, fields⟩
  · rw [RiskEventDto.of, written]
    exact parsed
  · rw [← rename_variant derived.snakeCase event]
    exact textMember_of_lookup tag

theorem readTag_of (derived : DerivedJson rename serialize parse) (event : RiskEvent) :
    readTag parse (RiskEventDto.of serialize event).json = some event.kind := by
  obtain ⟨members, parsed, tag, -⟩ := exists_members derived event
  rw [readTag, parsed, Option.bind_some, tag]

/-- What is written is read back. -/
theorem readEvent_of (derived : DerivedJson rename serialize parse) (event : RiskEvent) :
    readEvent parse (RiskEventDto.of serialize event).json = some event := by
  obtain ⟨members, parsed, tag, fields⟩ := exists_members derived event
  rw [readEvent, parsed, Option.bind_some, tag, Option.bind_some]
  cases event with
  | positionOpened account symbol side notional =>
    simp only [RiskEvent.fields, List.forall_mem_cons] at fields
    obtain ⟨ofAccount, ofSymbol, ofSide, ofNotional, -⟩ := fields
    change (readAccount members).bind (fun _ => (readSymbol members).bind fun _ =>
      (readSide members).bind fun _ => (readAmount "notional" members).bind fun _ => _) = _
    rw [readAccount_of_lookup account ofAccount, readSymbol_of_lookup symbol ofSymbol,
      readSide_of_lookup side ofSide, readAmount_of_lookup "notional" notional ofNotional]
    rfl
  | positionClosed account symbol realizedPnl =>
    simp only [RiskEvent.fields, List.forall_mem_cons] at fields
    obtain ⟨ofAccount, ofSymbol, ofPnl, -⟩ := fields
    change (readAccount members).bind (fun _ => (readSymbol members).bind fun _ =>
      (readAmount "realized_pnl" members).bind fun _ => _) = _
    rw [readAccount_of_lookup account ofAccount, readSymbol_of_lookup symbol ofSymbol,
      readAmount_of_lookup "realized_pnl" realizedPnl ofPnl]
    rfl
  | marketUpdated symbol markPrice fundingRateBps =>
    simp only [RiskEvent.fields, List.forall_mem_cons] at fields
    obtain ⟨ofSymbol, ofPrice, ofRate, -⟩ := fields
    change (readSymbol members).bind (fun _ => (numberMember "mark_price" members).bind fun _ =>
      (readRate members).bind fun _ => _) = _
    rw [readSymbol_of_lookup symbol ofSymbol, numberMember_of_lookup ofPrice,
      readRate_of_lookup fundingRateBps ofRate]
    rfl
  | fundingSettled account symbol amount =>
    simp only [RiskEvent.fields, List.forall_mem_cons] at fields
    obtain ⟨ofAccount, ofSymbol, ofAmount, -⟩ := fields
    change (readAccount members).bind (fun _ => (readSymbol members).bind fun _ =>
      (readAmount "amount" members).bind fun _ => _) = _
    rw [readAccount_of_lookup account ofAccount, readSymbol_of_lookup symbol ofSymbol,
      readAmount_of_lookup "amount" amount ofAmount]
    rfl
  | liquidated liquidation =>
    simp only [RiskEvent.fields, Liquidation.fields, List.forall_mem_cons] at fields
    obtain ⟨ofAccount, ofSymbol, ofReason, ofNotional, ofDraw, ofLoss, -⟩ := fields
    change ((readAccount members).bind fun _ => (readSymbol members).bind fun _ =>
      (readReason members).bind fun _ => (readAmount "closed_notional" members).bind fun _ =>
      (readAmount "insurance_draw" members).bind fun _ =>
      (readAmount "socialized_loss" members).bind fun _ => _).map _ = _
    rw [readAccount_of_lookup liquidation.account ofAccount,
      readSymbol_of_lookup liquidation.symbol ofSymbol,
      readReason_of_lookup liquidation.reason ofReason,
      readAmount_of_lookup "closed_notional" liquidation.closedNotional ofNotional,
      readAmount_of_lookup "insurance_draw" liquidation.insuranceDraw ofDraw,
      readAmount_of_lookup "socialized_loss" liquidation.socializedLoss ofLoss]
    rfl
  | autoDeleveraged symbol socializedLoss =>
    simp only [RiskEvent.fields, List.forall_mem_cons] at fields
    obtain ⟨ofSymbol, ofLoss, -⟩ := fields
    change (readSymbol members).bind (fun _ => (readAmount "socialized_loss" members).bind fun _ => _)
      = _
    rw [readSymbol_of_lookup symbol ofSymbol,
      readAmount_of_lookup "socialized_loss" socializedLoss ofLoss]
    rfl

/-! ## Outcomes -/

/-- A list of payloads read one by one. -/
theorem readEvents_of (derived : DerivedJson rename serialize parse) (events : List RiskEvent) :
    (events.map (RiskEventDto.of serialize)).mapM (fun dto => readEvent parse dto.json) =
      some events := by
  induction events with
  | nil => rfl
  | cons event events ih =>
    rw [List.map_cons, List.mapM_cons, readEvent_of derived event, ih]
    rfl

/-- The count sent is the number of payloads of that kind. -/
theorem liquidationCount_eq (serialize : RiskEvent → Option String) (outcome : CommandOutcome) :
    outcome.liquidationCount =
      (OutcomeDto.of serialize outcome).events.countP fun dto => dto.kind = "liquidated" := by
  change _ = (outcome.events.map (RiskEventDto.of serialize)).countP _
  rw [List.countP_map]
  refine List.countP_congr fun event _ => ?_
  cases event <;> simp [RiskEventDto.of, RiskEvent.kind]

/-- A client gets back the events of an outcome, in order, and each payload names
the kind it is sent with. The count of liquidations sent is that of the payloads,
as long as it fits. -/
theorem outcome_readable (derived : DerivedJson rename serialize parse) (outcome : CommandOutcome) :
    (OutcomeDto.of serialize outcome).events.mapM (fun dto => readEvent parse dto.json) =
        some outcome.events ∧
      (∀ dto ∈ (OutcomeDto.of serialize outcome).events, readTag parse dto.json = some dto.kind) ∧
      (OutcomeDto.of serialize outcome).liquidationCount.toInt =
        min (((OutcomeDto.of serialize outcome).events.countP fun dto =>
          dto.kind = "liquidated" : Nat) : Int) (maxInt 32) := by
  refine ⟨?_, ?_, ?_⟩
  · exact readEvents_of derived outcome.events
  · intro dto sent
    obtain ⟨event, -, rfl⟩ := List.mem_map.mp sent
    exact readTag_of derived event
  · have low := minInt_neg 32
    rw [← liquidationCount_eq]
    change ((SignedInt.tryFrom (outcome.liquidationCount : Int)).getD SignedInt.maxValue).toInt = _
    rw [SignedInt.toInt_tryFrom_getD_maxValue, if_pos (by omega)]

end Payload

/-! ## A serializer -/

/-- A letter, with an underscore before it if it is a capital. -/
def lowered (c : Char) : List Char := if c.isUpper then ['_', c.toLower] else [c.toLower]

/-- A variant's name in snake case. -/
def snakeCase (variant : String) : String :=
  match variant.toList with
  | [] => ""
  | c :: cs => String.ofList (c.toLower :: cs.flatMap lowered)

/-- What case does to a lower-case letter. -/
theorem lower_cases {c : Char} (lower : c.isLower = true) :
    c.toUpper.toLower = c ∧ lowered c.toUpper = ['_', c] ∧ lowered c = [c] := by
  have every : ∀ n ∈ (List.range 26).map (97 + ·), (Char.ofNat n).toUpper.toLower = Char.ofNat n ∧
      lowered (Char.ofNat n).toUpper = ['_', Char.ofNat n] ∧
      lowered (Char.ofNat n) = [Char.ofNat n] := by decide
  have letter := every c.toNat (by
    obtain ⟨first, last⟩ := (Bool.and_eq_true _ _).mp lower
    have low : 97 ≤ c.toNat := of_decide_eq_true first
    have high : c.toNat ≤ 122 := of_decide_eq_true last
    rw [List.mem_map]
    exact ⟨c.toNat - 97, List.mem_range.mpr (by omega), by omega⟩)
  rwa [Char.ofNat_toNat] at letter

theorem lowered_word {word : List Char} (lower : word.all Char.isLower = true) :
    word.flatMap lowered = word := by
  induction word with
  | nil => rfl
  | cons c word ih =>
    obtain ⟨own, rest⟩ := (Bool.and_eq_true _ _).mp lower
    rw [List.flatMap_cons, (lower_cases own).2.2, ih rest]
    rfl

/-- Behind the first word an underscore comes before each. -/
theorem lowered_words {words : List (List Char)}
    (lower : ∀ word ∈ words, word ≠ [] ∧ word.all Char.isLower = true) (first : List Char) :
    first ++ (words.flatMap capitalize).flatMap lowered = ['_'].intercalate (first :: words) := by
  induction words generalizing first with
  | nil => simp
  | cons word words ih =>
    obtain ⟨⟨nonempty, own⟩, rest⟩ := List.forall_mem_cons.mp lower
    obtain ⟨c, cs, rfl⟩ := List.exists_cons_of_ne_nil nonempty
    obtain ⟨letter, letters⟩ := (Bool.and_eq_true _ _).mp own
    rw [List.flatMap_cons, List.flatMap_append, capitalize, List.flatMap_cons,
      (lower_cases letter).2.1, lowered_word letters, List.intercalate_cons_cons, ← ih rest]
    simp

theorem snakeCase_words : SnakeCase snakeCase := by
  intro words lower
  rw [snakeCase, String.toList_ofList]
  cases words with
  | nil => rfl
  | cons word words =>
    obtain ⟨⟨nonempty, own⟩, rest⟩ := List.forall_mem_cons.mp lower
    obtain ⟨c, cs, rfl⟩ := List.exists_cons_of_ne_nil nonempty
    obtain ⟨letter, letters⟩ := (Bool.and_eq_true _ _).mp own
    change String.ofList (c.toUpper.toLower :: (cs ++ words.flatMap capitalize).flatMap lowered) = _
    rw [(lower_cases letter).1, List.flatMap_append, lowered_word letters, ← lowered_words rest,
      List.cons_append]

/-- The members of an event, the tag first. -/
def eventMembers (event : RiskEvent) : List Json.Member :=
  textField "event" (snakeCase event.variant) :: event.fields

theorem eventMembers_distinct (event : RiskEvent) : ((eventMembers event).map Prod.fst).Nodup := by
  cases event <;> simp only [eventMembers, RiskEvent.fields, Liquidation.fields, textField, usdField,
    List.map] <;> decide

/-- Members on one line. -/
def compact (event : RiskEvent) : Option String :=
  some (String.ofList (Json.renderObject (eventMembers event)))

theorem compact_derived : DerivedJson snakeCase compact fun json => Json.readObject json.toList where
  snakeCase := snakeCase_words
  written event := by
    refine ⟨_, eventMembers event, rfl, ?_, rfl, fun field member => ?_⟩
    · rw [String.toList_ofList, Json.readObject_renderObject]
    · exact Json.lookup_of_mem (eventMembers_distinct event) (List.mem_cons_of_mem _ member)

open Sample in
/-- Two events, one of an account with a quote in its name. -/
theorem outcome_readable_quoted :
    let outcome : CommandOutcome := ⟨[.liquidated ⟨⟨"al\"ice", by decide, by decide⟩, sol, .bankruptcy,
      dollars 900, dollars 5, dollars 35⟩, .autoDeleveraged sol (dollars (-35))]⟩
    (OutcomeDto.of compact outcome).events.mapM
        (fun dto => readEvent (fun json => Json.readObject json.toList) dto.json) =
        some outcome.events ∧
      (∀ dto ∈ (OutcomeDto.of compact outcome).events,
        readTag (fun json => Json.readObject json.toList) dto.json = some dto.kind) ∧
      (OutcomeDto.of compact outcome).liquidationCount.toInt = 1 := by
  intro outcome
  obtain ⟨read, tagged, counted⟩ := outcome_readable compact_derived outcome
  exact ⟨read, tagged, counted.trans (by decide +kernel)⟩

end MarginGuard.Guarantees
