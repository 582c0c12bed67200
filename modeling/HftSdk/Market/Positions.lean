import HftSdk.Common.Symbol
import HftSdk.Market.Pnl

/-!
# The positions of a trader

The trade engine finds positions by trader and symbol, in a hash map, and lists those of a trader
with `get_positions`. `run_listed`: the list has every symbol that the trader has traded, once, with
the position that `get_position` finds for it. `hash_separates` says how well the hash of the map
tells its keys apart.
-/

namespace HftSdk

namespace Position

@[simp] theorem fill_symbol (pos : Position) (side : Side) (qty price : Int) :
    (pos.fill side qty price).symbol = pos.symbol := by
  cases side
  · unfold fill averageBuy closeShort
    split_ifs <;> rfl
  · unfold fill averageSell closeLong
    split_ifs <;> rfl

@[simp] theorem mark_symbol (pos : Position) (price : Int) : (pos.mark price).symbol = pos.symbol := by
  unfold mark
  split_ifs <;> rfl

end Position

namespace TradeEngine

/-- `get_positions`, in no particular order. -/
def getPositions (e : TradeEngine) (traderId : TraderId) : Multiset Position :=
  (e.positions.entries.filter fun entry => entry.1.traderId = traderId).map fun entry => entry.2

theorem getPosition_updatePosition (e : TradeEngine) (t : TraderId) (s : Symbol) (side : Side)
    (qty price : Int) (t' : TraderId) (s' : Symbol) :
    (e.updatePosition t s side qty price).getPosition t' s' =
      if t' = t ∧ s' = s then
        some (({ e.position t s with symbol := s } : Position).fill side qty price)
      else e.getPosition t' s' := by
  unfold getPosition updatePosition
  rw [Finmap.lookup_alter]
  simp only [TraderSymbolKey.mk.injEq]
  rfl

theorem isSome_updatePosition (e : TradeEngine) (t : TraderId) (s : Symbol) (side : Side)
    (qty price : Int) (t' : TraderId) (s' : Symbol) :
    ((e.updatePosition t s side qty price).getPosition t' s').isSome ↔
      (t' = t ∧ s' = s) ∨ (e.getPosition t' s').isSome := by
  rw [getPosition_updatePosition]
  split_ifs with h
  · exact iff_of_true rfl (.inl h)
  · exact (or_iff_right h).symm

/-- Every entry is that of its symbol. -/
def Labelled (e : TradeEngine) : Prop := ∀ t s pos, e.getPosition t s = some pos → pos.symbol = s

theorem Labelled.updatePosition {e : TradeEngine} (h : e.Labelled) (t : TraderId) (s : Symbol)
    (side : Side) (qty price : Int) : (e.updatePosition t s side qty price).Labelled := by
  intro t' s' pos hpos
  rw [getPosition_updatePosition] at hpos
  split_ifs at hpos with hkey
  · obtain rfl := Option.some_inj.mp hpos
    rw [Position.fill_symbol]
    exact hkey.2.symm
  · exact h t' s' pos hpos

theorem Labelled.markToMarket {e : TradeEngine} (h : e.Labelled) (s : Symbol) (price : Int) :
    (e.markToMarket s price).Labelled := by
  intro t s' pos hpos
  rw [getPosition_markToMarket] at hpos
  obtain ⟨pos', hpos', rfl⟩ := Option.map_eq_some_iff.mp hpos
  rw [apply_ite Position.symbol, Position.mark_symbol, ite_self]
  exact h t s' pos' hpos'

theorem mem_getPositions {e : TradeEngine} {t : TraderId} {pos : Position} :
    pos ∈ e.getPositions t ↔ ∃ s, e.getPosition t s = some pos := by
  unfold getPositions getPosition
  rw [Multiset.mem_map]
  constructor
  · rintro ⟨⟨⟨t', s⟩, pos'⟩, hentry, rfl⟩
    obtain ⟨hmem, rfl⟩ := Multiset.mem_filter.mp hentry
    exact ⟨s, Finmap.lookup_eq_some_iff.mpr hmem⟩
  · rintro ⟨s, hs⟩
    exact ⟨⟨⟨t, s⟩, pos⟩, Multiset.mem_filter.mpr ⟨Finmap.lookup_eq_some_iff.mp hs, rfl⟩, rfl⟩

theorem Labelled.nodup_getPositions {e : TradeEngine} (h : e.Labelled) (t : TraderId) :
    ((e.getPositions t).map Position.symbol).Nodup := by
  unfold getPositions
  rw [Multiset.map_map]
  refine Multiset.Nodup.map_on ?_ (e.positions.nodup_entries.filter _)
  rintro ⟨⟨t₁, s₁⟩, pos₁⟩ h₁ ⟨⟨t₂, s₂⟩, pos₂⟩ h₂ hsymbol
  obtain ⟨hmem₁, rfl⟩ := Multiset.mem_filter.mp h₁
  obtain ⟨hmem₂, rfl⟩ := Multiset.mem_filter.mp h₂
  have hlookup₁ := Finmap.lookup_eq_some_iff.mpr hmem₁
  have hlookup₂ := Finmap.lookup_eq_some_iff.mpr hmem₂
  have hs₁ := h _ _ _ hlookup₁
  have hs₂ := h _ _ _ hlookup₂
  obtain rfl : s₁ = s₂ := hs₁.symm.trans (hsymbol.trans hs₂)
  obtain rfl : pos₁ = pos₂ := Option.some_inj.mp (hlookup₁.symm.trans hlookup₂)
  rfl

end TradeEngine

namespace Trade

/-- The trader is a party to a trade of the symbol. -/
def Involves (t : TraderId) (s : Symbol) (trade : Trade) : Prop :=
  trade.symbol = s ∧ (trade.incomingTrader = t ∨ trade.restingTrader = t)

end Trade

namespace TradeRun

/-- **What `get_positions` lists** for a trader: every position under its symbol as `get_position`
finds it, no symbol twice, and all symbols that he has traded. -/
structure Listed (r : TradeRun) (t : TraderId) : Prop where
  found : ∀ pos, pos ∈ r.engine.getPositions t ↔ r.engine.getPosition t pos.symbol = some pos
  once : ((r.engine.getPositions t).map Position.symbol).Nodup
  traded : ∀ s, s ∈ (r.engine.getPositions t).map Position.symbol ↔
    ∃ trade ∈ r.trades, trade.Involves t s

/-- Every entry is that of its symbol, and there is one for what was traded. -/
structure Keyed (r : TradeRun) : Prop where
  labelled : r.engine.Labelled
  traded : ∀ t s, (r.engine.getPosition t s).isSome ↔ ∃ trade ∈ r.trades, trade.Involves t s

theorem Keyed.step {r : TradeRun} (h : r.Keyed) (op : TradeOp) : (r.step op).Keyed := by
  cases op with
  | trade tr =>
    have hcount : (r.engine.countTrade tr).Labelled := h.labelled
    have hincoming :=
      hcount.updatePosition tr.incomingTrader tr.symbol tr.aggressorSide tr.qty tr.price
    refine ⟨hincoming.updatePosition tr.restingTrader tr.symbol _ tr.qty tr.price, fun t s => ?_⟩
    have hold : ((r.engine.countTrade tr).getPosition t s).isSome ↔
        ∃ trade ∈ r.trades, trade.Involves t s := h.traded t s
    rw [TradeRun.step, TradeEngine.processTrade, TradeEngine.isSome_updatePosition,
      TradeEngine.isSome_updatePosition, hold]
    have hthis : (∃ trade ∈ [tr], trade.Involves t s) ↔
        (t = tr.restingTrader ∧ s = tr.symbol) ∨ (t = tr.incomingTrader ∧ s = tr.symbol) := by
      unfold Trade.Involves
      simp only [List.mem_singleton, exists_eq_left]
      grind
    simp only [List.mem_append, or_and_right, exists_or, hthis]
    rw [← or_assoc]
    exact or_comm
  | mark symbol price =>
    refine ⟨h.labelled.markToMarket symbol price, fun t s => ?_⟩
    rw [TradeRun.step, TradeEngine.getPosition_markToMarket, Option.isSome_map]
    exact h.traded t s

theorem Keyed.listed {r : TradeRun} (h : r.Keyed) (t : TraderId) : r.Listed t where
  found pos := by
    rw [TradeEngine.mem_getPositions]
    constructor
    · rintro ⟨s, hs⟩
      exact (h.labelled t s pos hs).symm ▸ hs
    · exact fun hpos => ⟨pos.symbol, hpos⟩
  once := h.labelled.nodup_getPositions t
  traded s := by
    rw [← h.traded, Multiset.mem_map, Option.isSome_iff_exists]
    constructor
    · rintro ⟨pos, hpos, rfl⟩
      obtain ⟨s, hs⟩ := TradeEngine.mem_getPositions.mp hpos
      exact ⟨pos, (h.labelled t s pos hs).symm ▸ hs⟩
    · rintro ⟨pos, hpos⟩
      exact ⟨pos, TradeEngine.mem_getPositions.mpr ⟨s, hpos⟩, h.labelled t s pos hpos⟩

/-- **The list of positions is right** after any trades and marks. -/
theorem run_listed (ops : List TradeOp) (t : TraderId) : (ops.foldl step {}).Listed t := by
  have hempty : ({} : TradeRun).Keyed := by
    refine ⟨fun t s pos hpos => ?_, fun t s => ?_⟩
    · cases hpos
    · exact iff_of_false (by nofun) (by nofun)
  exact (Run.invariant (fun _ op h => h.step op) ops hempty).listed t

end TradeRun

/-! ## The hash of the map -/

/-- `TraderSymbolKeyHash`; `hash` is `std::hash<TraderId>`. -/
def TraderSymbolKeyHash (hash : TraderId → UInt64) (k : TraderSymbolKey) : UInt64 :=
  let h1 := hash k.traderId
  let h2 := SymbolHash k.symbol
  h1 ^^^ (h2 <<< 1)

theorem eq_of_traderSymbolKeyHash {hash : TraderId → UInt64} {t : TraderId} {s s' : Symbol}
    (h : TraderSymbolKeyHash hash ⟨t, s⟩ = TraderSymbolKeyHash hash ⟨t, s'⟩)
    (hmsb : (SymbolHash s).toBitVec.msb = (SymbolHash s').toBitVec.msb) : s = s' := by
  have hshift : SymbolHash s <<< 1 = SymbolHash s' <<< 1 := (UInt64.xor_right_inj _).mp h
  apply symbolHash_inj.mp
  apply UInt64.toBitVec_inj.mp
  exact WordMix.eq_of_shiftLeft_one (congrArg UInt64.toBitVec hshift) hmsb

/-- **Hashes tell symbols apart**: no two symbols share a hash, no three keys of a trader do, and keys
of one symbol do only where the hashes of their traders do. -/
theorem hash_separates (hash : TraderId → UInt64) (t t' : TraderId) (s s' s'' : Symbol) :
    (SymbolHash s = SymbolHash s' ↔ s = s') ∧
      (TraderSymbolKeyHash hash ⟨t, s⟩ = TraderSymbolKeyHash hash ⟨t, s'⟩ →
        TraderSymbolKeyHash hash ⟨t, s⟩ = TraderSymbolKeyHash hash ⟨t, s''⟩ →
        s = s' ∨ s = s'' ∨ s' = s'') ∧
      (TraderSymbolKeyHash hash ⟨t, s⟩ = TraderSymbolKeyHash hash ⟨t', s⟩ ↔ hash t = hash t') := by
  refine ⟨symbolHash_inj, fun h h' => ?_, UInt64.xor_left_inj _⟩
  -- of three bits two are the same
  cases hs : (SymbolHash s).toBitVec.msb == (SymbolHash s').toBitVec.msb with
  | true => exact .inl (eq_of_traderSymbolKeyHash h (beq_iff_eq.mp hs))
  | false =>
    cases hs' : (SymbolHash s).toBitVec.msb == (SymbolHash s'').toBitVec.msb with
    | true => exact .inr (.inl (eq_of_traderSymbolKeyHash h' (beq_iff_eq.mp hs')))
    | false =>
      refine .inr (.inr (eq_of_traderSymbolKeyHash (h.symm.trans h') ?_))
      revert hs hs'
      cases (SymbolHash s).toBitVec.msb <;> cases (SymbolHash s').toBitVec.msb <;>
        cases (SymbolHash s'').toBitVec.msb <;> decide

end HftSdk
