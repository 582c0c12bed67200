import HftSdk.Market.Dispatch
import HftSdk.Market.TradeEngine
import HftSdk.Orderbook.Reports

/-!
# The two position ledgers

The risk engine and the trade engine both keep net positions. The trade engine is told of every
trade and books both of its legs; the risk engine is told of the filled quantity of a new order,
for its trader only, and of nothing that a replace does. `run_agree_iff` says along which runs the
two agree all the same: new orders must trade with nobody, and replacements only with their own
trader (`LedgersKeep`).
-/

namespace HftSdk

open Sweep

/-! ## What the trades of a call add up to -/

namespace L3OrderBook

variable {b : L3OrderBook}

/-- The orders on the other side that an order may trade with, best first. -/
def facing (b : L3OrderBook) (o : Order) : OrderQueue :=
  ((b.levels o.side.opp).entries.filter fun e => !beyondLimit o e.1).flatMap Prod.snd

theorem forall_reached_facing (b : L3OrderBook) (o : Order) (qty : Int) (P : TraderId → Prop) :
    (∀ n ∈ reached (fun n => n.val.openQty) qty (b.facing o), P n.val.traderId) ↔
      ∀ q ∈ reached Quote.openQty qty (tradable o (b.ladder.side o.side.opp)),
        P q.order.traderId := by
  have hfacing : (b.facing o).map (fun n => (n.addr, n.val.unposed)) =
      (tradable o (b.ladder.side o.side.opp)).map fun q => (q.addr, q.order) := by
    rw [facing, ← quotes_nodes, ← tradable_quotes]
    rfl
  have hreached := congrArg (reached (fun x : Nat × L3Order => x.2.openQty) qty) hfacing
  rw [reached_map (fun n : ListNode L3Order => n.val.openQty)
      (f := fun n : ListNode L3Order => (n.addr, n.val.unposed)) fun _ => rfl,
    reached_map Quote.openQty (f := fun q : Quote => (q.addr, q.order)) fun _ => rfl] at hreached
  have hall := congrArg (fun l : List (Nat × L3Order) => ∀ x ∈ l, P x.2.traderId) hreached
  simp only [List.forall_mem_map] at hall
  exact iff_of_eq hall

theorem sum_tradeQty_fillTrades (c : BookCore) (o : Order) (ts : Timestamp)
    (fs : List (Quote × Int)) (t : TraderId) (s : Symbol) :
    ((c.fillTrades o ts fs).map (TradeEngine.tradeQty t s)).sum =
      if s = c.symbol then
        o.side.signed ((if t = o.traderId then taken fs else 0) -
          given (fun q => q.order.traderId) t fs)
      else 0 := by
  induction fs generalizing c with
  | nil => simp [BookCore.fillTrades, given]
  | cons x fs ih =>
    obtain ⟨q, m⟩ := x
    have hsymbol : (c.settleOne q m).symbol = c.symbol := congrArg Prod.fst (c.settleOne_tape q m)
    have hone : TradeEngine.tradeQty t s (c.tradeWith o q.price q.order m ts) =
        if s = c.symbol then
          o.side.signed ((if t = o.traderId then m else 0) - if q.order.traderId = t then m else 0)
        else 0 := by
      rw [TradeEngine.tradeQty, Side.signed_opp]
      dsimp only [BookCore.tradeWith]
      by_cases hs : s = c.symbol
      · simp only [hs, and_true, if_true, @eq_comm _ q.order.traderId t]
        split_ifs <;> cases o.side <;> simp [Side.signed]
      · simp [hs]
    rw [BookCore.fillTrades, List.map_cons, List.sum_cons, ih, hsymbol, hone, taken_cons, given_cons]
    split_ifs
    all_goals first | rfl | (rw [← Side.signed_add]; congr 1; omega)

theorem RepInv.sum_tradeQty_addOrder (h : b.RepInv) (o : Order) (ts : Timestamp) (t : TraderId)
    (s : Symbol) : ((b.addOrder o ts).trades.map (TradeEngine.tradeQty t s)).sum =
      if s = b.symbol then
        o.side.signed ((if t = o.traderId then taken (b.ladder.addFills o) else 0) -
          given (fun q => q.order.traderId) t (b.ladder.addFills o))
      else 0 := by
  rw [(h.addOrder o ts).trades, sum_tradeQty_fillTrades]

end L3OrderBook

/-! ## One call -/

namespace MatchingEngine

open TradeEngine (tradeQty)

/-- The call leaves the ledgers in agreement: a new order that passes the checks finds nothing to
trade with, or is killed, and a replacement reaches orders of its own trader only. -/
def LedgersKeep (e : MatchingEngine) : EngineOp → Prop
  | .newOrder order _ _ =>
    ∀ risk b, e.riskEngine = some risk → e.book order.symbol = some b →
      (risk.checkOrder order).1 = .none → order.id ∉ b.orderIndex →
      b.tradableQty order = 0 ∨ order.tif = .fok ∧ b.tradableQty order < order.quantity
  | .replace req ts _ =>
    ∀ b loc, e.book req.symbol = some b → b.orderIndex.lookup req.orderId = some loc →
      ∀ n ∈ reached (fun n => n.val.openQty) req.newQty
        (b.facing (L3OrderBook.replacement req loc.side ts)), n.val.traderId = req.traderId
  | _ => True

/-- Both ledgers move alike in a call. -/
def MoveAlike (e : MatchingEngine) (op : EngineOp) : Prop :=
  ∀ t s, e.riskFill op t s = ((e.tradesOf op).map (tradeQty t s)).sum

theorem Inv.symbol {e : MatchingEngine} (h : e.Inv) {s : Symbol} {b : L3OrderBook}
    (hb : e.book s = some b) : b.symbol = s := BooksReachable.symbol h.books hb

theorem forall_signed_iff (side : Side) (symbol : Symbol) (f g : TraderId → Int) :
    (∀ t s, (if s = symbol then side.signed (f t) else 0) =
      if s = symbol then side.signed (g t) else 0) ↔ ∀ t, f t = g t := by
  refine ⟨fun h t => ?_, fun h t s => by rw [h t]⟩
  have := h t symbol
  rwa [if_pos rfl, if_pos rfl, Side.signed_inj] at this

theorem filledQty_addOrder {b : L3OrderBook} (h : b.RepInv) {o : Order} (hq : 0 < o.quantity)
    (ts : Timestamp) : (b.addOrder o ts).rpt.filledQty = taken (b.ladder.addFills o) := by
  by_cases hid : b.ladder.Has o.id
  · rw [h.addOrder_of_has hid, Ladder.addFills, if_pos hid, taken_nil]
    rfl
  · rw [h.filledQty_eq hid hq.le, (h.addOrder o ts).trades, BookCore.fillTrades_qty]

theorem moveAlike_newOrder {b : L3OrderBook} (h : b.RepInv) {o : Order} (ts : Timestamp)
    (hq : 0 < o.quantity) (hsymbol : b.symbol = o.symbol) :
    (∀ t s, (if t = o.traderId ∧ s = o.symbol ∧ 0 < (b.addOrder o ts).rpt.filledQty then
        o.side.signed (b.addOrder o ts).rpt.filledQty else 0) =
      ((b.addOrder o ts).trades.map (tradeQty t s)).sum) ↔ b.ladder.addFills o = [] := by
  have hpos := h.inv.addFills_pos o
  have htaken : 0 ≤ taken (b.ladder.addFills o) := total_nonneg Prod.snd hpos
  have hrisk : ∀ t s, (if t = o.traderId ∧ s = o.symbol ∧ 0 < taken (b.ladder.addFills o) then
      o.side.signed (taken (b.ladder.addFills o)) else 0) =
        if s = o.symbol then
          o.side.signed (if t = o.traderId then taken (b.ladder.addFills o) else 0)
        else 0 := by
    intro t s
    rcases htaken.eq_or_lt with hzero | hlt
    · simp [← hzero]
    · by_cases ht : t = o.traderId <;> simp [ht, hlt]
  simp only [filledQty_addOrder h hq, hrisk, h.sum_tradeQty_addOrder, hsymbol]
  rw [forall_signed_iff]
  constructor
  · intro hall
    by_contra hne
    obtain ⟨x, hx⟩ := List.exists_mem_of_ne_nil _ hne
    have hzero : given (fun q => q.order.traderId) x.1.order.traderId (b.ladder.addFills o) = 0 := by
      have := hall x.1.order.traderId
      omega
    exact (given_eq_zero hpos).mp hzero x hx rfl
  · intro hnil t
    rw [hnil, given_nil, Int.sub_zero]

theorem addFills_eq_nil_iff {b : L3OrderBook} (h : b.RepInv) {o : Order} (hq : 0 < o.quantity) :
    b.ladder.addFills o = [] ↔ (o.id ∉ b.orderIndex →
      b.tradableQty o = 0 ∨ o.tif = .fok ∧ b.tradableQty o < o.quantity) := by
  rw [h.mem_index, b.tradableQty_eq, Ladder.addFills]
  by_cases hid : b.ladder.Has o.id
  · simp [hid]
  · have htaken := h.inv.taken_eq hq.le
    have hliq := h.inv.liquidity_nonneg o
    rw [if_neg hid, h.inv.fillsOf_eq_nil, htaken]
    by_cases hk : o.tif = .fok ∧ b.ladder.liquidity o < o.quantity
    · simp [hk, hid]
    · rw [if_neg hk]
      simp only [hid, hk, not_false_eq_true, or_false, forall_const]
      omega

theorem addFills_replacement {L : Ladder} (h : L.Inv) {q : Quote} (hq : q ∈ L.all)
    {req : ReplaceRequest} (hid : q.order.id = req.orderId) (ts : Timestamp) :
    let o := L3OrderBook.replacement req q.order.side ts
    (L.cancel req.orderId).addFills o =
      fills Quote.openQty req.newQty (tradable o (L.side o.side.opp)) := by
  intro o
  have hnot : ¬ (L.cancel req.orderId).Has o.id := L.not_has_cancel req.orderId
  have hday : ¬ (o.tif = .fok ∧ (L.cancel req.orderId).liquidity o < o.quantity) :=
    fun hfok => TimeInForce.noConfusion hfok.1
  have hside : (L.cancel req.orderId).side o.side.opp = L.side o.side.opp :=
    hid ▸ h.cancel_side_opp hq
  rw [Ladder.addFills, if_neg hnot, Ladder.fillsOf, Ladder.demand, if_neg hday, hside]
  rfl

theorem moveAlike_replace {b : L3OrderBook} (h : b.RepInv) {req : ReplaceRequest}
    {loc : OrderLocation} (hloc : b.orderIndex.lookup req.orderId = some loc) (ts : Timestamp) :
    (∀ t s, 0 = ((b.replaceOrder req ts).trades.map (tradeQty t s)).sum) ↔
      ∀ n ∈ reached (fun n => n.val.openQty) req.newQty
        (b.facing (L3OrderBook.replacement req loc.side ts)), n.val.traderId = req.traderId := by
  obtain ⟨q, hq, hid, hside⟩ := h.exists_of_lookup hloc
  rw [← hside]
  have hc := h.cancelOrder {} req.orderId ts
  have hsum := hc.repInv.sum_tradeQty_addOrder (L3OrderBook.replacement req q.order.side ts) ts
  have hpos := hc.repInv.inv.addFills_pos (L3OrderBook.replacement req q.order.side ts)
  rw [hc.ladder, addFills_replacement h.inv hq hid ts] at hsum hpos
  rw [← (h.replaceOrder_eq hq hid ts).2.1] at hsum
  rw [b.forall_reached_facing _ _ (· = req.traderId), ← map_fst_fills, List.forall_mem_map]
  generalize fills Quote.openQty req.newQty _ = fs at hsum hpos ⊢
  have hown : (∀ t, given (fun q : Quote => q.order.traderId) t fs =
      if t = req.traderId then taken fs else 0) ↔ ∀ x ∈ fs, x.1.order.traderId = req.traderId :=
    given_eq_taken hpos
  rw [← hown]
  have hzero : ∀ s symbol : Symbol, (0 : Int) = if s = symbol then q.order.side.signed 0 else 0 :=
    fun s symbol => by simp
  constructor
  · intro hall t
    have := (forall_signed_iff q.order.side _ (fun _ => 0) _).mp fun t s =>
      (hzero s _).symm.trans ((hall t s).trans (hsum t s))
    exact (Int.sub_eq_zero.mp (this t).symm).symm
  · intro hall t s
    have hdiff : (if t = (L3OrderBook.replacement req q.order.side ts).traderId then taken fs else 0) -
        given (fun q => q.order.traderId) t fs = 0 := Int.sub_eq_zero.mpr (hall t).symm
    rw [hsum, hdiff]
    exact hzero s _

theorem Inv.moveAlike_iff {e : MatchingEngine} (h : e.Inv) (op : EngineOp) :
    e.MoveAlike op ↔ e.LedgersKeep op := by
  obtain ⟨risk, hr⟩ := h.attached
  cases hd : e.dispatch op with
  | none =>
    have hmove : e.MoveAlike op := by
      intro t s
      rw [(dispatch_none hd).1, riskFill_of_dispatch_none hd]
      rfl
    apply iff_of_true hmove
    cases op with
    | newOrder order ts publishedAt =>
      intro risk' b hr' hb hok
      have hcheck : (e.checkRisk order).1 = .none := by rw [checkRisk_attached hr', hok]
      exact absurd (.newOrder hb hcheck) (not_reaches hd _)
    | replace req ts publishedAt =>
      intro b loc hb
      exact absurd (.replace hb) (not_reaches hd _)
    | _ => trivial
  | some c =>
    have hc := dispatch_some hd
    have hrep := h.repInv hc.here
    have hsymbol := h.symbol hc.here
    unfold MoveAlike
    rw [hc.trades]
    cases reaches_of_dispatch hd with
    | @newOrder order ts _ b hb hok =>
      simp only [riskFill, hd]
      rw [checkRisk_attached hr] at hok
      have hq := (RiskEngine.gate_of_checkOrder hok).quantity
      refine (moveAlike_newOrder hrep ts hq hsymbol).trans ((addFills_eq_nil_iff hrep hq).trans ?_)
      constructor
      · rintro hcond risk' b' hr' hb' -
        obtain rfl := Option.some_inj.mp (hb.symm.trans hb')
        exact hcond
      · intro hkeep
        exact hkeep risk b hr hb hok
    | @cancel req ts _ symbol b _ hb =>
      refine iff_of_true (fun t s => ?_) trivial
      rw [L3OrderBook.step, (hrep.cancelOrder {} req.orderId ts).trades]
      rfl
    | @replace req ts publishedAt b hb =>
      have hkeep : e.LedgersKeep (.replace req ts publishedAt) ↔ ∀ loc,
          b.orderIndex.lookup req.orderId = some loc → ∀ n ∈ reached (fun n => n.val.openQty)
            req.newQty (b.facing (L3OrderBook.replacement req loc.side ts)),
              n.val.traderId = req.traderId :=
        ⟨fun hkeep loc => hkeep b loc hb, fun hkeep b' loc hb' =>
          Option.some_inj.mp (hb.symm.trans hb') ▸ hkeep loc⟩
      rw [hkeep]
      cases hl : b.orderIndex.lookup req.orderId with
      | none =>
        rw [L3OrderBook.step, hrep.replaceOrder_of_not_has (hrep.not_has_of_lookup hl)]
        exact iff_of_true (fun _ _ => rfl) fun loc hloc => absurd hloc.symm (Option.some_ne_none loc)
      | some loc =>
        refine (moveAlike_replace hrep hl ts).trans ⟨fun hall loc' hl' => ?_, fun hall => hall loc rfl⟩
        obtain rfl := Option.some_inj.mp hl'
        exact hall

end MatchingEngine

/-! ## Runs -/

/-- A matching engine with a trade engine on its trade callback, and the trades so far. -/
structure Venue where
  engine : MatchingEngine
  tradeEngine : TradeEngine := {}
  trades : List Trade := []

namespace Venue

open TradeEngine (tradeQty)

/-- Fresh engines, with these limits. -/
def start (defaultLimits : TraderRiskLimits)
    (traderLimits : Finmap fun _ : TraderId => TraderRiskLimits) : Venue where
  engine := .start { defaultLimits, traderLimits }

def step (v : Venue) (op : EngineOp) : Venue where
  engine := v.engine.step op
  tradeEngine := (v.engine.tradesOf op).foldl TradeEngine.processTrade v.tradeEngine
  trades := v.trades ++ v.engine.tradesOf op

/-- Both ledgers have the signed sum of the trades of every trader in every symbol. -/
def Agree (v : Venue) : Prop :=
  ∃ risk, v.engine.riskEngine = some risk ∧ ∀ t s,
    risk.getPosition t s = v.tradeEngine.netQty t s ∧
      v.tradeEngine.netQty t s = (v.trades.map (tradeQty t s)).sum

theorem agree_start (defaultLimits : TraderRiskLimits)
    (traderLimits : Finmap fun _ : TraderId => TraderRiskLimits) :
    (start defaultLimits traderLimits).Agree :=
  ⟨_, rfl, fun _ _ => ⟨rfl, rfl⟩⟩

theorem Agree.step_iff {v : Venue} (h : v.Agree) (op : EngineOp) :
    (v.step op).Agree ↔ v.engine.MoveAlike op := by
  obtain ⟨risk, hr, hagree⟩ := h
  obtain ⟨risk', hr', hpos⟩ := MatchingEngine.step_position hr op
  have hnet : ∀ t s, (v.step op).tradeEngine.netQty t s =
      v.tradeEngine.netQty t s + ((v.engine.tradesOf op).map (tradeQty t s)).sum :=
    fun t s => TradeEngine.netQty_foldl _ _ t s
  have hsum : ∀ t s, ((v.step op).trades.map (tradeQty t s)).sum =
      (v.trades.map (tradeQty t s)).sum + ((v.engine.tradesOf op).map (tradeQty t s)).sum :=
    fun t s => by rw [step, List.map_append, List.sum_append]
  constructor
  · rintro ⟨risk₂, hr₂, hagree₂⟩ t s
    obtain rfl := Option.some_inj.mp (hr₂.symm.trans hr')
    have h₂ := (hagree₂ t s).1
    rw [hpos, hnet, (hagree t s).1] at h₂
    exact Int.add_left_cancel h₂
  · intro hmove
    refine ⟨risk', hr', fun t s => ⟨?_, ?_⟩⟩
    · rw [hpos, hnet, (hagree t s).1, hmove t s]
    · rw [hnet, hsum, (hagree t s).2]

/-- **When the two ledgers agree**: exactly along the runs whose new orders trade with nobody and
whose replacements trade with their own trader only. -/
theorem run_agree_iff (defaultLimits : TraderRiskLimits)
    (traderLimits : Finmap fun _ : TraderId => TraderRiskLimits) (ops : List EngineOp) :
    Run.Along step (fun v op => (v.step op).Agree) (start defaultLimits traderLimits) ops ↔
      Run.Along step (fun v op => v.engine.LedgersKeep op) (start defaultLimits traderLimits) ops := by
  have hiff : ∀ (v : Venue) op, v.engine.Inv ∧ v.Agree →
      ((v.step op).Agree ↔ v.engine.LedgersKeep op) :=
    fun v op h => (h.2.step_iff op).trans (h.1.moveAlike_iff op)
  exact Run.along_congr (I := fun v : Venue => v.engine.Inv ∧ v.Agree) hiff
    (fun v op h hkeep => ⟨h.1.step op, (hiff v op h).mpr hkeep⟩)
    ⟨MatchingEngine.inv_start _, agree_start _ _⟩

/-- Trader 1 buys from the resting order of trader 2: the risk engine keeps trader 2 at 0. -/
theorem resting_fill_not_in_risk_engine :
    ¬ ∀ defaultLimits traderLimits ops,
      Run.Along step (fun v op => (v.step op).Agree) (start defaultLimits traderLimits) ops := by
  intro h
  have hrun := h {} ∅ [.addSymbol {},
    .newOrder { id := 1, traderId := 2, side := .sell, price := 100, quantity := 10 } 0 0,
    .newOrder { id := 2, traderId := 1, price := 100, quantity := 10 } 1 1]
  obtain ⟨risk, hr, hagree⟩ := hrun.2.2.1
  have := (hagree 2 {}).1
  obtain rfl := Option.some_inj.mp hr.symm
  revert this
  decide

end Venue

end HftSdk
