import HftSdk.Market.Sessions
import HftSdk.Orderbook.TopOfBook

/-!
# Market data views

There are four views of a book: the top of book that the L1 feed caches when a request publishes,
the tops of book that the book pushes to the L1 callback, the depth that the L2 aggregator
recomputes, and the orders themselves. `watch_viewsAgree` says that they agree after every call, for
every symbol whose book a request has reached; before that the cached top of book is the default one.
-/

namespace HftSdk

/-- The value of an L1 callback. -/
def EngineEvent.l1? : EngineEvent → Option TopOfBook
  | .l1 tob => some tob
  | _ => none

namespace MatchingEngine

/-! ## Books and feeds after a call -/

/-- The book of a symbol, its aggregator, and the top of book that its L1 feed has cached. -/
def feeds (e : MatchingEngine) (s : Symbol) : Option (L3OrderBook × L2Aggregator × TopOfBook) :=
  (e.symbols.lookup s).map fun state => (state.book, state.l2, state.l1.lastTob)

theorem feeds_insert (e : MatchingEngine) (symbol : Symbol) (state : SymbolState) (s : Symbol) :
    ({ e with symbols := e.symbols.insert symbol state } : MatchingEngine).feeds s =
      if s = symbol then some (state.book, state.l2, state.l1.lastTob) else e.feeds s := by
  unfold feeds
  split_ifs with h
  · rw [h, Finmap.lookup_insert]
    rfl
  · rw [Finmap.lookup_insert_of_ne _ h]

theorem feeds_onBookEvent (e : MatchingEngine) (ev : BookEvent) (s : Symbol) :
    (e.onBookEvent ev).feeds s = e.feeds s := by
  cases ev with
  | topOfBook tob => rfl
  | trade t =>
    unfold onBookEvent
    dsimp only
    cases hs : e.symbols.lookup t.symbol with
    | none => rfl
    | some state =>
      dsimp only
      refine (feeds_insert _ _ _ _).trans ?_
      split_ifs with h
      · rw [h, feeds, hs]
        rfl
      · rfl

theorem feeds_afterCall (e : MatchingEngine) (symbol : Symbol) (state : SymbolState) (r : BookResult)
    (s : Symbol) :
    (e.afterCall symbol state r).feeds s =
      if s = symbol then some (r.book, state.l2, state.l1.lastTob) else e.feeds s := by
  have hfold : ∀ (evs : List BookEvent) (e : MatchingEngine),
      (evs.foldl onBookEvent e).feeds s = e.feeds s := by
    intro evs
    induction evs with
    | nil => exact fun _ => rfl
    | cons ev evs ih => exact fun e => (ih _).trans (e.feeds_onBookEvent ev s)
  rw [afterCall, hfold, feeds_insert]

theorem feeds_report (e : MatchingEngine) (symbol : Symbol) (r : BookResult) (ts : Timestamp)
    (s : Symbol) :
    (e.report symbol r ts).engine.feeds s =
      if s = symbol then (e.feeds s).map fun (b, l2, _) => (b, l2, b.topOfBook ts)
      else e.feeds s := by
  unfold report publishMarketData
  cases hs : e.symbols.lookup symbol with
  | none =>
    dsimp only
    split_ifs with h
    · rw [h, feeds, hs]
      rfl
    · rfl
  | some state =>
    refine (feeds_insert _ _ _ _).trans ?_
    split_ifs with h
    · rw [h, feeds, hs]
      rfl
    · rfl

theorem feeds_of_dispatch {e : MatchingEngine} {op : EngineOp} {c : BookCall}
    (h : e.dispatch op = some c) : ∃ l2 tob, e.feeds c.symbol = some (c.book, l2, tob) ∧
      ∀ s, (e.step op).feeds s =
        if s = c.symbol then
          some ((c.book.step c.op).book, l2, (c.book.step c.op).book.topOfBook (publishTime op))
        else e.feeds s := by
  obtain ⟨state, e', hends⟩ := exists_ends h
  have hsame : ∀ s, e'.feeds s = (e.afterCall c.symbol state (c.book.step c.op)).feeds s := fun s => by
    rw [feeds, hends.symbols, feeds]
  refine ⟨state.l2, state.l1.lastTob, ?_, fun s => ?_⟩
  · rw [feeds, hends.here, ← hends.book]
    rfl
  · rw [step, hends.perform]
    dsimp only
    rw [feeds_report, hsame, feeds_afterCall]
    split_ifs <;> rfl

theorem feeds_of_dispatch_none {e : MatchingEngine} {op : EngineOp} (h : e.dispatch op = none)
    (s : Symbol) : (e.step op).feeds s = e.feeds s ∨
      e.feeds s = none ∧ (e.step op).feeds s = some (.create s, {}, {}) := by
  by_cases hadd : ∀ s, op ≠ .addSymbol s
  · rw [feeds, (symbols_of_request_none hadd h).2.1]
    exact Or.inl rfl
  · push Not at hadd
    obtain ⟨symbol, rfl⟩ := hadd
    rw [step, perform, addSymbol]
    split_ifs with hmem
    · exact Or.inl rfl
    · dsimp only
      rw [feeds_insert]
      split_ifs with hs
      · rw [hs, feeds, Finmap.lookup_eq_none.mpr hmem]
        exact Or.inr ⟨rfl, rfl⟩
      · exact Or.inl rfl

theorem l1_of_dispatch {e : MatchingEngine} {op : EngineOp} {c : BookCall}
    (h : e.dispatch op = some c) :
    (e.perform op).2.filterMap EngineEvent.l1? = (c.book.step c.op).tobs := by
  obtain ⟨state, e', hends⟩ := exists_ends h
  have hforward : EngineEvent.l1? ∘ forward = BookEvent.tob? := by
    funext ev
    cases ev <;> rfl
  rw [hends.perform]
  unfold report publishMarketData BookResult.tobs
  cases e'.symbols.lookup c.symbol <;>
    simp [List.filterMap_append, hforward, EngineEvent.l1?]

end MatchingEngine

/-! ## The views along a session -/

/-- An engine with a receiver on its L1 callback, and the symbols whose books were reached. -/
structure MarketWatch where
  engine : MatchingEngine := {}
  delivered : List TopOfBook := []
  reached : List Symbol := []

namespace MarketWatch

def step (w : MarketWatch) (call : SessionCall) : MarketWatch :=
  let e := w.engine.withRisk call.risk
  { engine := w.engine.stepCall call
    delivered := w.delivered ++ (e.perform call.op).2.filterMap EngineEvent.l1?
    reached := (e.dispatch call.op).toList.map BookCall.symbol ++ w.reached }

/-- The watched session. -/
def watch (calls : List SessionCall) : MarketWatch := calls.foldl step {}

/-- The last top of book delivered for a symbol. -/
def last (w : MarketWatch) (s : Symbol) : Option TopOfBook :=
  (w.delivered.filter fun tob => tob.symbol = s).getLast?

/-- What the views have in common all along. -/
structure Inv (w : MarketWatch) : Prop where
  books : w.engine.BooksReachable
  known : ∀ s b l2 tob, w.engine.feeds s = some (b, l2, tob) →
    l2 = {} ∧ b.Shown (w.last s) ∧ (s ∈ w.reached → tob.untimed = b.topOfBook 0)
  unknown : ∀ s, w.engine.feeds s = none → s ∉ w.reached ∧ w.last s = none

theorem inv_start : ({} : MarketWatch).Inv where
  books _ _ h := absurd h nofun
  known _ _ _ _ h := absurd h nofun
  unknown _ _ := ⟨List.not_mem_nil, rfl⟩

theorem Inv.step_of_none {w : MarketWatch} (h : w.Inv) {call : SessionCall}
    (hd : (w.engine.withRisk call.risk).dispatch call.op = none) : (w.step call).Inv := by
  have hl1 := (MatchingEngine.symbols_of_dispatch_none hd).2.2
  have hdelivered : (w.step call).delivered = w.delivered := by
    refine (congrArg (w.delivered ++ ·) (List.filterMap_eq_nil_iff.mpr fun ev hev => ?_)).trans
      (List.append_nil _)
    cases ev with
    | l1 tob => exact absurd hev (hl1 tob)
    | _ => rfl
  have hlast : ∀ s, (w.step call).last s = w.last s := fun s => by rw [last, hdelivered, last]
  have hreached : (w.step call).reached = w.reached := by
    rw [step]
    dsimp only
    rw [hd]
    rfl
  have hfeeds := MatchingEngine.feeds_of_dispatch_none hd
  refine ⟨MatchingEngine.BooksReachable.step (e := w.engine.withRisk call.risk) h.books call.op,
    fun s b l2 tob hs => ?_, fun s hs => ?_⟩
  · rw [hlast, hreached]
    rcases hfeeds s with hsame | ⟨hnone, hnew⟩
    · exact h.known s b l2 tob (hsame.symm.trans hs)
    · -- a new symbol was not reached, and its book is empty
      obtain ⟨hnot, hl⟩ := h.unknown s hnone
      obtain ⟨rfl, rfl, rfl⟩ : L3OrderBook.create s = b ∧ ({} : L2Aggregator) = l2 ∧
          ({} : TopOfBook) = tob := by simpa using hnew.symm.trans hs
      rw [hl]
      exact ⟨rfl, rfl, fun hmem => absurd hmem hnot⟩
  · rw [hlast, hreached]
    rcases hfeeds s with hsame | ⟨-, hnew⟩
    · exact h.unknown s (hsame.symm.trans hs)
    · exact absurd (hs.symm.trans hnew) (Option.some_ne_none _).symm

theorem Inv.step_of_some {w : MarketWatch} (h : w.Inv) {call : SessionCall} {c : BookCall}
    (hd : (w.engine.withRisk call.risk).dispatch call.op = some c) : (w.step call).Inv := by
  obtain ⟨l2, tob, hhere, hfeeds⟩ := MatchingEngine.feeds_of_dispatch hd
  have hbook : w.engine.book c.symbol = some c.book := (MatchingEngine.dispatch_some hd).here
  have hrep := h.books.repInv hbook
  have hsymbol := h.books.symbol hbook
  have hreached : (w.step call).reached = c.symbol :: w.reached := by
    rw [step]
    dsimp only
    rw [hd]
    rfl
  have hdelivered : (w.step call).delivered = w.delivered ++ (c.book.step c.op).tobs :=
    congrArg (w.delivered ++ ·) (MatchingEngine.l1_of_dispatch hd)
  have hlast : ∀ s, (w.step call).last s =
      if s = c.symbol then (c.book.step c.op).tobs.getLast?.or (w.last s) else w.last s := by
    intro s
    rw [last, hdelivered, List.filter_append, List.getLast?_append]
    split_ifs with hs
    · rw [List.filter_eq_self.mpr fun tob htob => decide_eq_true
        ((hrep.tobs_symbol c.op tob htob).trans (hsymbol.trans hs.symm))]
      rfl
    · rw [List.filter_eq_nil_iff.mpr fun tob htob heq => hs ((of_decide_eq_true heq).symm.trans
        ((hrep.tobs_symbol c.op tob htob).trans hsymbol))]
      rfl
  obtain ⟨rfl, hshown, -⟩ := h.known _ _ _ _ hhere
  refine ⟨MatchingEngine.BooksReachable.step (e := w.engine.withRisk call.risk) h.books call.op,
    fun s b l2 tob hs => ?_, fun s hs => ?_⟩
  · rw [hlast, hreached]
    have hs' := (hfeeds s).symm.trans hs
    split_ifs at hs' ⊢ with hsc
    · obtain ⟨rfl, rfl, rfl⟩ : (c.book.step c.op).book = b ∧ ({} : L2Aggregator) = l2 ∧
          (c.book.step c.op).book.topOfBook (MatchingEngine.publishTime call.op) = tob := by
        simpa using hs'
      refine ⟨rfl, ?_, fun _ => L3OrderBook.topOfBook_untimed _ _⟩
      rw [hsc]
      exact hrep.shown_step c.op hshown
    · obtain ⟨hl2, hb, htob⟩ := h.known s b l2 tob hs'
      exact ⟨hl2, hb, fun hmem => htob ((List.mem_cons.mp hmem).resolve_left hsc)⟩
  · have hs' := (hfeeds s).symm.trans hs
    split_ifs at hs' with hsc
    obtain ⟨hnot, hl⟩ := h.unknown s hs'
    rw [hlast, hreached, if_neg hsc]
    exact ⟨fun hmem => hnot ((List.mem_cons.mp hmem).resolve_left hsc), hl⟩

theorem Inv.step {w : MarketWatch} (h : w.Inv) (call : SessionCall) : (w.step call).Inv := by
  cases hd : (w.engine.withRisk call.risk).dispatch call.op with
  | none => exact h.step_of_none hd
  | some c => exact h.step_of_some hd

/-- The views of a symbol's book: the cached top of book, the last one delivered, and the depth. -/
structure ViewsAgree (w : MarketWatch) (s : Symbol) (b : L3OrderBook) : Prop where
  cached : ∀ now, (w.engine.getTopOfBook s).untimed = (b.topOfBook now).untimed
  delivered : b.Shown (w.last s)
  bids : ∀ now, b.ShowsDepth .buy (w.engine.getDepth s now).bids (w.engine.getDepth s now).bidLevels
  asks : ∀ now, b.ShowsDepth .sell (w.engine.getDepth s now).asks (w.engine.getDepth s now).askLevels
  best : ∀ now, (w.engine.getDepth s now).bids[0] = (b.topOfBook now).bestBid ∧
    (w.engine.getDepth s now).asks[0] = (b.topOfBook now).bestAsk

/-- **The views agree** after every session, for every symbol whose book was reached. -/
theorem watch_viewsAgree (calls : List SessionCall) : ∀ s ∈ (watch calls).reached,
    ∃ b, (watch calls).engine.book s = some b ∧ (watch calls).ViewsAgree s b := by
  intro s hs
  have h : (watch calls).Inv := Run.invariant (fun w call h => h.step call) calls inv_start
  cases hf : (watch calls).engine.symbols.lookup s with
  | none => exact absurd hs (h.unknown s (by rw [MatchingEngine.feeds, hf]; rfl)).1
  | some state =>
    obtain ⟨hl2, hshown, hcached⟩ := h.known s state.book state.l2 state.l1.lastTob
      (by rw [MatchingEngine.feeds, hf]; rfl)
    have htop : (watch calls).engine.getTopOfBook s = state.l1.lastTob := by
      rw [MatchingEngine.getTopOfBook, hf]
    have hdepth : ∀ now, (watch calls).engine.getDepth s now =
        ({} : L2Aggregator).snapshot state.book now := by
      intro now
      rw [MatchingEngine.getDepth, hf, ← hl2]
    refine ⟨state.book, by rw [MatchingEngine.book, hf]; rfl, ?_, hshown, ?_, ?_, ?_⟩ <;> intro now
    · rw [htop, hcached hs, L3OrderBook.topOfBook_untimed]
    · rw [hdepth]
      exact (state.book.snapshot_showsDepth now).1
    · rw [hdepth]
      exact (state.book.snapshot_showsDepth now).2
    · rw [hdepth]
      exact state.book.snapshot_best now now

/-- The views of a book with a bid and an ask that partly traded. -/
theorem watch_viewsAgree_traded :
    let w := watch ([.addSymbol {},
      .newOrder { id := 1, side := .sell, price := 10, quantity := 5 } 0 1,
      .newOrder { id := 2, side := .buy, price := 9, quantity := 4 } 2 3,
      .newOrder { id := 3, side := .buy, price := 10, quantity := 2 } 4 5].map (SessionCall.mk none))
    ∃ b, w.engine.book {} = some b ∧ w.ViewsAgree {} b :=
  watch_viewsAgree _ {} (by decide)

end MarketWatch

end HftSdk
