import MarginGuard.Source.Served

/-!
# The keys a command touches

Which key a call writes, removes or settles, which key an event reports as
ended, and what a command has read about a key. One command removes, settles
and reports no key twice (`removals_nodup`, `moves_nodup`, `ended_nodup`), and
it removes whatever it reports as ended (`removal_of_ended`).
-/
namespace MarginGuard.Source
open Foundation

/-- The key a call writes a position under. -/
def storedKey (c : EngineCall) : Option Key :=
  match c.op with
  | .upsert pos => some pos.key
  | _ => none

/-- The key a call removes. -/
def removedKey (c : EngineCall) : Option Key :=
  match c.op with
  | .remove account symbol => some (account, symbol)
  | _ => none

/-- What a call has read about a key: the answer of a `get`, or the entries a
listing has under it. -/
def readings (key : Key) : EngineCall → List (Option Position)
  | ⟨.get account symbol, .ok held⟩ => if (account, symbol) = key then [held] else []
  | ⟨.byMarket _, .ok listing⟩ => (listing.filter fun pos => pos.key = key).map some
  | _ => []

theorem storedKey_eq_some {c : EngineCall} {key : Key} :
    storedKey c = some key ↔ ∃ pos, c.op = .upsert pos ∧ pos.key = key := by
  obtain ⟨op, ans⟩ := c
  cases op <;> simp [storedKey]

theorem removedKey_eq_some {c : EngineCall} {key : Key} :
    removedKey c = some key ↔ c.op = .remove key.1 key.2 := by
  obtain ⟨op, ans⟩ := c
  cases op <;> simp [removedKey, Prod.ext_iff]

/-- The key of the position an event reports as ended. -/
def endedKey : RiskEvent → Option Key
  | .positionClosed account symbol _ => some (account.asStr, symbol)
  | .liquidated liquidation => some (liquidation.account.asStr, liquidation.symbol)
  | _ => none

/-- The position on whose account a call draws on the fund or credits it. -/
def settledPosition (c : EngineCall) : Option Position :=
  match c.op with
  | .cover pos _ => some pos
  | .credit pos _ => some pos
  | _ => none

/-- The key on whose account a call moves the fund. -/
def settledKey (c : EngineCall) : Option Key := (settledPosition c).map Position.key

/-! ## Justifications, key by key -/

section Justified
variable {command : RiskCommand} {front : List EngineCall} {c : EngineCall}

theorem Justified.write {pos : Position} (justified : Justified command front c)
    (writes : c.op = .upsert pos) :
    (command.opening = some pos ∧ ⟨.get pos.account.asStr pos.symbol, .ok none⟩ ∈ front) ∨
      ∃ mark rateBps old, Funds command front mark rateBps old ∧
        pos = fundedPosition mark rateBps old := by
  unfold Justified at justified
  rwa [writes] at justified

theorem Justified.removal {key : Key} (justified : Justified command front c)
    (removes : removedKey c = some key) :
    (∃ owner : AccountId, owner.asStr = key.1 ∧ command = .closePosition owner key.2) ∨
      ∃ mark params pos, Sweeps command front mark params pos ∧ pos.key = key := by
  unfold Justified at justified
  rwa [removedKey_eq_some.mp removes] at justified

theorem Justified.settlement {pos : Position} (justified : Justified command front c)
    (settles : settledPosition c = some pos) :
    ∃ mark params, Removed command front mark params pos := by
  obtain ⟨op, ans⟩ := c
  cases op <;> simp only [settledPosition, Option.some.injEq, reduceCtorEq] at settles
  case cover =>
    subst settles
    obtain ⟨mark, params, removed, -⟩ := justified
    exact ⟨mark, params, removed⟩
  case credit =>
    subst settles
    obtain ⟨mark, params, removed, -⟩ := justified
    exact ⟨mark, params, removed⟩

/-- An open removes nothing. -/
theorem Justified.not_opening {key : Key} (justified : Justified command front c)
    (removes : removedKey c = some key) : command.opening = none := by
  obtain ⟨owner, -, rfl⟩ | ⟨mark, params, pos, sweeps, -⟩ := justified.removal removes
  · rfl
  · rw [sweeps.sweep]
    rfl

/-- What an open writes is its position, after it has found the key free. -/
theorem Justified.opened {pos written : Position} (justified : Justified command front c)
    (opens : command.opening = some pos) (writes : c.op = .upsert written) :
    written = pos ∧ ⟨.get pos.account.asStr pos.symbol, .ok none⟩ ∈ front := by
  obtain ⟨opens', read⟩ | ⟨mark, rateBps, old, funds, -⟩ := justified.write writes
  · rw [opens'] at opens
    obtain rfl := Option.some.inj opens
    exact ⟨rfl, read⟩
  · rw [funds.round] at opens
    cases opens

/-- A command writes in its own market only. -/
theorem Justified.write_symbol {pos : Position} (justified : Justified command front c)
    (writes : c.op = .upsert pos) : pos.symbol = command.symbol := by
  obtain ⟨opens, -⟩ | ⟨mark, rateBps, old, funds, rfl⟩ := justified.write writes
  · obtain ⟨_, _, _, _, _, _, _, _, rfl, rfl⟩ := opening_eq_some opens
    rfl
  · rw [funds.round]
    rfl

/-- A command removes in its own market only. -/
theorem Justified.removal_symbol {key : Key} (justified : Justified command front c)
    (removes : removedKey c = some key) : key.2 = command.symbol := by
  obtain ⟨owner, -, rfl⟩ | ⟨mark, params, pos, sweeps, rfl⟩ := justified.removal removes
  · rfl
  · rw [sweeps.sweep]
    rfl

end Justified

/-! ## No key twice -/

/-- The positions a sweep settles are distinct. -/
theorem Processed.keys_nodup {mark : Price} {params : RiskParams} {listing : List Position}
    {settled : List Settlement} {store : PositionStore} {symbol : Symbol}
    (processed : Processed mark params listing settled) (lists : store.Lists symbol listing) :
    (settled.map fun s => s.position.key).Nodup := by
  have positions : settled.map (fun s => s.position.key) =
      (listing.filter fun pos => isLiquidatable pos mark params).map Position.key := by
    rw [← processed.positions_eq, List.map_map]
    rfl
  rw [positions]
  exact (List.filter_sublist.map _).nodup lists.nodup

/-- A sweep's calls, seen through what each settlement does to its key. -/
theorem filterMap_settlements {symbol : Symbol} {settled : List Settlement}
    {f : EngineCall → Option Key}
    (each : ∀ s ∈ settled, (s.calls symbol).filterMap f = [s.position.key]) :
    (settled.flatMap (Settlement.calls symbol)).filterMap f =
      settled.map fun s => s.position.key := by
  induction settled with
  | nil => rfl
  | cons s settled ih =>
    rw [List.flatMap_cons, List.filterMap_append, each s (by simp),
      ih fun s' member => each s' (by simp [member])]
    rfl

theorem removedKey_settlement {s : Settlement} {symbol : Symbol}
    (own : s.position.symbol = symbol) : (s.calls symbol).filterMap removedKey = [s.position.key] := by
  subst own
  cases short : s.bankrupt with
  | true =>
    rw [Settlement.calls_of_bankrupt short]
    rfl
  | false =>
    rw [Settlement.calls_of_solvent short]
    rfl

theorem settledKey_settlement (s : Settlement) (symbol : Symbol) :
    (s.calls symbol).filterMap settledKey = [s.position.key] := by
  cases short : s.bankrupt with
  | true =>
    rw [Settlement.calls_of_bankrupt short]
    rfl
  | false =>
    rw [Settlement.calls_of_solvent short]
    rfl

/-- The settled positions lie in the market that was swept. -/
theorem Processed.symbol_eq {mark : Price} {params : RiskParams} {listing : List Position}
    {settled : List Settlement} {store : PositionStore} {symbol : Symbol}
    (processed : Processed mark params listing settled) (lists : store.Lists symbol listing)
    {s : Settlement} (member : s ∈ settled) : s.position.symbol = symbol :=
  lists.symbol_eq (processed.mem_listing member).1

theorem publishCalls_inert {α : Type} {f : EngineCall → Option α}
    (inert : ∀ events, f ⟨.publish events, .ok ()⟩ = none) (events : List RiskEvent) :
    (publishCalls events).filterMap f = [] := by
  rw [List.filterMap_eq_nil_iff]
  intro c member
  rw [mem_publishCalls member]
  exact inert events

theorem adlCalls_inert {α : Type} {f : EngineCall → Option α} (inert : f ⟨.countAdl, ()⟩ = none)
    (total : Usd) : (adlCalls total).filterMap f = [] := by
  rw [List.filterMap_eq_nil_iff]
  intro c member
  rw [mem_adlCalls member]
  exact inert

theorem fundingCalls_inert {f : EngineCall → Option Key}
    (write : ∀ pos, f ⟨.upsert pos, .ok ()⟩ = none) (count : ∀ n, f ⟨.countFunding n, ()⟩ = none)
    (mark : Price) (rateBps : I64) (listing : List Position) :
    (listing.map (fundingCall mark rateBps) ++ fundingCount listing).filterMap f = [] := by
  rw [List.filterMap_eq_nil_iff]
  intro c member
  rcases List.mem_append.mp member with written | counted
  · obtain ⟨pos, -, rfl⟩ := List.mem_map.mp written
    exact write _
  · rw [mem_fundingCount counted]
    exact count _

/-- A served command removes no key twice. -/
theorem Served.removals_nodup {command : RiskCommand} {body : List EngineCall}
    {r : Except CoreError CommandOutcome} (served : Served command body r) :
    (body.filterMap removedKey).Nodup := by
  cases served with
  | accrued symbol mark rateBps listing lists =>
    rw [List.filterMap_cons_none rfl, List.filterMap_cons_none rfl,
      fundingCalls_inert (fun _ => rfl) fun _ => rfl]
    exact List.nodup_nil
  | swept symbol mark params listing settled processed lists =>
    rw [List.filterMap_cons_none rfl, List.filterMap_cons_none rfl, List.filterMap_append,
      adlCalls_inert rfl, List.append_nil, filterMap_settlements fun s member =>
        removedKey_settlement (processed.symbol_eq lists member)]
    exact processed.keys_nodup lists
  | _ => simp [removedKey, List.filterMap_cons]

/-- A served command moves the fund at most once on a key's account. -/
theorem Served.moves_nodup {command : RiskCommand} {body : List EngineCall}
    {r : Except CoreError CommandOutcome} (served : Served command body r) :
    (body.filterMap settledKey).Nodup := by
  cases served with
  | accrued symbol mark rateBps listing lists =>
    rw [List.filterMap_cons_none rfl, List.filterMap_cons_none rfl,
      fundingCalls_inert (fun _ => rfl) fun _ => rfl]
    exact List.nodup_nil
  | swept symbol mark params listing settled processed lists =>
    rw [List.filterMap_cons_none rfl, List.filterMap_cons_none rfl, List.filterMap_append,
      adlCalls_inert rfl, List.append_nil,
      filterMap_settlements fun s _ => settledKey_settlement s symbol]
    exact processed.keys_nodup lists
  | _ => simp [settledKey, settledPosition, List.filterMap_cons]

/-- A served command reports no key ended twice. -/
theorem Served.ended_nodup {command : RiskCommand} {body : List EngineCall}
    {r : Except CoreError CommandOutcome} (served : Served command body r) :
    ((eventsOf r).filterMap endedKey).Nodup := by
  cases served with
  | accrued symbol mark rateBps listing lists =>
    have inert : ((listing.map (fundingEvent symbol mark rateBps)).filterMap endedKey) = [] := by
      rw [List.filterMap_eq_nil_iff]
      intro e member
      obtain ⟨pos, -, rfl⟩ := List.mem_map.mp member
      rfl
    change ((listing.map (fundingEvent symbol mark rateBps)).filterMap endedKey).Nodup
    rw [inert]
    exact List.nodup_nil
  | swept symbol mark params listing settled processed lists =>
    have liquidated : (settled.map (Settlement.event symbol)).filterMap endedKey =
        settled.map fun s => s.position.key := by
      rw [List.filterMap_map, ← List.filterMap_eq_map]
      apply List.filterMap_congr
      intro s member
      simp [Settlement.event, Settlement.liquidation, endedKey, Position.key,
        processed.symbol_eq lists member]
    have adl : (adlEvents symbol (totalSocialized settled)).filterMap endedKey = [] :=
      List.filterMap_eq_nil_iff.mpr fun e member => by
        rw [mem_adlEvents member]
        rfl
    change ((sweepEvents symbol settled).filterMap endedKey).Nodup
    rw [sweepEvents, List.filterMap_append, liquidated, adl, List.append_nil]
    exact processed.keys_nodup lists
  | _ => simp [eventsOf, endedKey, openedEvent, closedEvent, List.filterMap_cons]

/-- What is picked from the calls of a command is picked from its method, where the
limiter and the sink are passed over. -/
theorem Applied.filterMap_nodup {f : EngineCall → Option Key} {command : RiskCommand}
    {calls : List EngineCall} {r : Except CoreError CommandOutcome}
    (limiter : ∀ granted, f ⟨.tryAcquire, granted⟩ = none)
    (publish : ∀ events, f ⟨.publish events, .ok ()⟩ = none)
    (within : ∀ body, Served command body r → (body.filterMap f).Nodup)
    (applied : Applied command calls r) : (calls.filterMap f).Nodup := by
  cases applied with
  | rateLimited =>
    rw [List.filterMap_cons_none (limiter false)]
    exact List.nodup_nil
  | admitted body r served =>
    rw [List.filterMap_cons_none (limiter true), List.filterMap_append, publishCalls_inert publish,
      List.append_nil]
    exact within body served

theorem Applied.removals_nodup {command : RiskCommand} {calls : List EngineCall}
    {r : Except CoreError CommandOutcome} (applied : Applied command calls r) :
    (calls.filterMap removedKey).Nodup :=
  applied.filterMap_nodup (fun _ => rfl) (fun _ => rfl) fun _ served => served.removals_nodup

theorem Applied.moves_nodup {command : RiskCommand} {calls : List EngineCall}
    {r : Except CoreError CommandOutcome} (applied : Applied command calls r) :
    (calls.filterMap settledKey).Nodup :=
  applied.filterMap_nodup (fun _ => rfl) (fun _ => rfl) fun _ served => served.moves_nodup

theorem Applied.ended_nodup {command : RiskCommand} {calls : List EngineCall}
    {r : Except CoreError CommandOutcome} (applied : Applied command calls r) :
    ((eventsOf r).filterMap endedKey).Nodup := by
  cases applied with
  | rateLimited => exact List.nodup_nil
  | admitted body r served => exact served.ended_nodup

/-! ## Ends and removals -/

/-- What a command reports as ended it has removed. -/
theorem Served.removal_of_ended {command : RiskCommand} {body : List EngineCall}
    {r : Except CoreError CommandOutcome} {key : Key} (served : Served command body r)
    (ended : key ∈ (eventsOf r).filterMap endedKey) :
    ∃ held, ⟨.remove key.1 key.2, .ok held⟩ ∈ body := by
  obtain ⟨e, member, reports⟩ := List.mem_filterMap.mp ended
  cases served with
  | closed account symbol pos mark own =>
    obtain rfl := List.mem_singleton.mp member
    simp only [closedEvent, endedKey, Option.some.injEq] at reports
    have named : pos.account.asStr = account.asStr := congrArg Prod.fst own
    exact ⟨some pos, by simp [← reports, named]⟩
  | swept symbol mark params listing settled processed lists =>
    rcases List.mem_append.mp member with liquidated | adl
    · obtain ⟨s, taken, rfl⟩ := List.mem_map.mp liquidated
      obtain rfl : (s.position.account.asStr, symbol) = key := Option.some.inj reports
      refine ⟨s.removed, ?_⟩
      simp only [List.mem_cons, List.mem_append, List.mem_flatMap]
      exact Or.inr (Or.inr (Or.inl ⟨s, taken, by simp [Settlement.calls]⟩))
    · rw [mem_adlEvents adl] at reports
      cases reports
  | _ => simp_all [eventsOf, endedKey, openedEvent, fundingEvent]

theorem Applied.removal_of_ended {command : RiskCommand} {calls : List EngineCall}
    {r : Except CoreError CommandOutcome} {key : Key} (applied : Applied command calls r)
    (ended : key ∈ (eventsOf r).filterMap endedKey) :
    ∃ held, ⟨.remove key.1 key.2, .ok held⟩ ∈ calls := by
  cases applied with
  | rateLimited => simp [eventsOf] at ended
  | admitted body r served =>
    obtain ⟨held, removal⟩ := served.removal_of_ended ended
    exact ⟨held, by simp [removal]⟩

/-- A close that succeeds has found what it removes. -/
theorem Applied.close_found {owner : AccountId} {market : Symbol} {calls : List EngineCall}
    {outcome : CommandOutcome} (applied : Applied (.closePosition owner market) calls (.ok outcome))
    {account : String} {symbol : Symbol} {held : Option Position}
    (removal : ⟨.remove account symbol, .ok held⟩ ∈ calls) : held ≠ none := by
  cases applied with
  | admitted body r served =>
    cases served with
    | opened opens => cases opens
    | closed =>
      rintro rfl
      simp [publishCalls, eventsOf, closedEvent] at removal

end MarginGuard.Source
