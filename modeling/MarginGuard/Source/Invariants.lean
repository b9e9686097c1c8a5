import MarginGuard.Source.Sequential

/-!
# What holds at every reachable engine

`History.invariant` is the induction over runs: what every transition preserves
holds throughout. Its first use, `Reachable.sound`, gives the facts every later
argument about reachable engines starts from: no command registers risk
parameters, so the default tier applies in every market; and the counter of open
positions never falls below the store's count.
-/
namespace MarginGuard.Source
open Foundation

/-- The invariant rule for runs from a fresh engine. -/
theorem History.invariant {I : RiskEngine → Prop} {seed : Usd} {config : EngineConfig}
    {admissible : RiskEngine → RiskCommand → Prop} (fresh : I (.fromParts seed config))
    (step : ∀ engine command result engine', I engine → admissible engine command →
      Transition engine command result engine' → I engine')
    {entries : List Entry} {engine : RiskEngine}
    (run : History seed config admissible entries engine) : I engine := by
  induction run with
  | fresh => exact fresh
  | apply before admitted ran ih => exact step _ _ _ _ ih admitted ran.transition

namespace Processed
variable {mark : Price} {params : RiskParams} {symbol : Symbol} {listing : List Position}
  {settled : List Settlement} {store : PositionStore}

/-- Each settlement is of a stored position of the market. -/
theorem stored (processed : Processed mark params listing settled)
    (lists : store.Lists symbol listing) {s : Settlement} (member : s ∈ settled) :
    store.get s.position.account.asStr symbol = some s.position :=
  (lists.mem_iff _).mp (processed.mem_listing member).1

theorem ids_nodup (processed : Processed mark params listing settled)
    (lists : store.Lists symbol listing) :
    ((settled.map Settlement.position).map fun pos => pos.account.asStr).Nodup := by
  rw [processed.positions_eq]
  exact (List.Sublist.map _ List.filter_sublist).nodup lists.ids_nodup

theorem get_removeAll (processed : Processed mark params listing settled)
    (lists : store.Lists symbol listing) (account : String) (symbol' : Symbol) :
    (store.removeAll symbol (settled.map Settlement.position)).get account symbol' =
      if symbol' = symbol then
        (store.get account symbol').filter fun pos => !isLiquidatable pos mark params
      else store.get account symbol' := by
  rw [processed.positions_eq, lists.get_removeAll_filter]

theorem count_removeAll (processed : Processed mark params listing settled)
    (lists : store.Lists symbol listing) :
    (store.removeAll symbol (settled.map Settlement.position)).count + settled.length =
      store.count := by
  have counted := @PositionStore.count_removeAll store symbol _ (processed.ids_nodup lists) (by
    intro pos member
    obtain ⟨s, settledMember, rfl⟩ := List.mem_map.mp member
    rw [processed.stored lists settledMember]
    rfl)
  rwa [List.length_map] at counted

end Processed

theorem removed_of_legal {engine : RiskEngine} {symbol : Symbol} {settled : List Settlement}
    (nodup : (settled.map fun s => s.position.account.asStr).Nodup)
    (stored : ∀ s ∈ settled,
      engine.store.get s.position.account.asStr symbol = some s.position)
    (legal : portsUp.Legal engine (settled.flatMap (Settlement.calls symbol))) :
    ∀ s ∈ settled, s.removed = some s.position := by
  induction settled generalizing engine with
  | nil => simp
  | cons s settled ih =>
    rw [List.flatMap_cons, Machine.legal_append, after_settlement] at legal
    rw [List.map_cons, List.nodup_cons] at nodup
    rw [List.forall_mem_cons] at stored ⊢
    obtain ⟨head, rest⟩ := legal
    refine ⟨(Except.ok.inj head.1).trans stored.1, ih nodup.2 (fun s' member => ?_) rest⟩
    change (engine.store.remove s.position.account.asStr symbol).get _ _ = _
    rw [PositionStore.get_remove, if_neg, stored.2 s' member]
    intro same
    exact nodup.1 (List.mem_map.mpr ⟨s', member, (Prod.mk.inj same).1⟩)

/-- With nothing else in flight, each removal of a sweep takes out the very
position that is settled. -/
theorem Processed.removed {engine : RiskEngine} {symbol : Symbol} {mark : Price}
    {params : RiskParams} {done rest : List Position} {settled : List Settlement}
    (processed : Processed mark params done settled)
    (lists : engine.store.Lists symbol (done ++ rest))
    (legal : portsUp.Legal engine (settled.flatMap (Settlement.calls symbol))) :
    ∀ s ∈ settled, s.removed = some s.position := by
  refine removed_of_legal ?_ (fun s member => ?_) legal
  · have sub : (settled.map Settlement.position).Sublist (done ++ rest) := by
      rw [processed.positions_eq]
      exact List.filter_sublist.trans (List.sublist_append_left done rest)
    have nodup := (sub.map fun pos => pos.account.asStr).nodup lists.ids_nodup
    rwa [List.map_map] at nodup
  · exact (lists.mem_iff _).mp (List.mem_append_left rest (processed.mem_listing member).1)

/-- What no command breaks. -/
structure Sound (config : EngineConfig) (engine : RiskEngine) : Prop where
  config_eq : engine.config = config
  risk_eq : engine.state.risk = ∅
  counted : engine.store.count ≤ engine.stats.openPositions

namespace Sound
variable {config : EngineConfig} {engine : RiskEngine}

/-- The default tier applies in every market. -/
theorem riskParams (sound : Sound config engine) (symbol : Symbol) :
    engine.riskParams symbol = config.defaultRisk := by
  rw [RiskEngine.riskParams, sound.risk_eq, sound.config_eq, Finmap.lookup_empty]
  rfl

end Sound

theorem count_accrued {engine : RiskEngine} {symbol : Symbol} {listing : List Position}
    (lists : engine.store.Lists symbol listing) (mark : Price) (rateBps : I64) :
    (engine.accrued mark rateBps listing).store.count = engine.store.count := by
  apply PositionStore.count_upsertAll
  intro pos member
  obtain ⟨old, listed, rfl⟩ := List.mem_map.mp member
  have stored := (lists.mem_iff old).mp listed
  have market := lists.symbol_eq listed
  change (engine.store.get old.account.asStr old.symbol).isSome
  rw [market, stored]
  rfl

theorem Transition.sound {config : EngineConfig} {engine engine' : RiskEngine}
    {command : RiskCommand} {result : Except CoreError CommandOutcome}
    (before : Sound config engine) (step : Transition engine command result engine') :
    Sound config engine' := by
  obtain ⟨sameConfig, sameRisk, counted⟩ := before
  cases step with
  | rateLimited => exact ⟨sameConfig, sameRisk, counted⟩
  | positionExists held present => exact ⟨sameConfig, sameRisk, counted⟩
  | insufficientMargin absent short => exact ⟨sameConfig, sameRisk, counted⟩
  | @opened _ _ _ _ _ _ _ _ pos own absent enough =>
    refine ⟨sameConfig, sameRisk, ?_⟩
    have more : (engine.store.upsert pos).count = engine.store.count + 1 :=
      PositionStore.count_upsert_of_none (by rw [own]; exact absent)
    change (engine.store.upsert pos).count ≤ engine.stats.openPositions + 1
    rw [more]
    omega
  | closeAbsent absent => exact ⟨sameConfig, sameRisk, counted⟩
  | closeUnpriced pos present unpriced =>
    refine ⟨sameConfig, sameRisk, ?_⟩
    have fewer := PositionStore.count_remove_of_some present
    change (engine.store.remove _ _).count ≤ engine.stats.openPositions
    omega
  | closed pos state present priced =>
    refine ⟨sameConfig, sameRisk, ?_⟩
    have fewer := PositionStore.count_remove_of_some present
    change (engine.store.remove _ _).count ≤ engine.stats.openPositions - 1
    omega
  | updated => exact ⟨sameConfig, sameRisk, counted⟩
  | accrueUnpriced unpriced => exact ⟨sameConfig, sameRisk, counted⟩
  | accrued state listing priced lists =>
    refine ⟨sameConfig, sameRisk, ?_⟩
    rw [RiskEngine.emit_store, count_accrued lists]
    exact counted
  | sweepUnpriced unpriced => exact ⟨sameConfig, sameRisk, counted⟩
  | swept state listing settled priced lists processed waterfall =>
    refine ⟨sameConfig, sameRisk, ?_⟩
    have fewer := processed.count_removeAll lists
    rw [RiskEngine.emit_store, RiskEngine.swept_store, RiskEngine.emit_stats,
      RiskEngine.swept_stats]
    change _ ≤ engine.stats.openPositions - settled.length
    omega

theorem sound_fromParts (seed : Usd) (config : EngineConfig) :
    Sound config (.fromParts seed config) := ⟨rfl, rfl, Nat.le_refl _⟩

theorem Reachable.sound {seed : Usd} {config : EngineConfig} {engine : RiskEngine}
    (reachable : Reachable seed config engine) : Sound config engine := by
  obtain ⟨entries, run⟩ := reachable
  exact run.invariant (sound_fromParts seed config) fun _ _ _ _ before _ step => step.sound before

end MarginGuard.Source
