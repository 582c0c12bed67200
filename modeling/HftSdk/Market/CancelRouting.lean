import HftSdk.Market.MachineEngine

/-!
# Cancel routing

A cancel without a symbol goes where the order index sends its id. The index has one entry for an
id, but the same id may rest in the books of several symbols, since duplicates are rejected book by
book. `along_routed_iff` says along which sessions every resting order can be found by its id: no new
order that is tracked may have an id that rests in another book (`KeepsRoutes`).
`MachineEngine.session_routed_iff` says it of the sessions of the code's 64-bit integers.
-/

namespace HftSdk

/-! ## Ids in a book -/

namespace L3OrderBook

variable {b : L3OrderBook}

/-- An order with this id rests in the book. -/
def HasOrder (b : L3OrderBook) (id : OrderId) : Prop := ∃ n ∈ b.nodes, n.val.id = id

instance (b : L3OrderBook) (id : OrderId) : Decidable (b.HasOrder id) :=
  inferInstanceAs (Decidable (∃ n ∈ b.nodes, _))

theorem hasOrder_iff (b : L3OrderBook) (id : OrderId) : b.HasOrder id ↔ b.ladder.Has id := by
  constructor
  · rintro ⟨n, hn, rfl⟩
    obtain ⟨q, hq, -, horder⟩ := quote_of_node hn
    exact ⟨q, hq, by rw [horder]; rfl⟩
  · rintro ⟨q, hq, rfl⟩
    obtain ⟨n, hn, -, horder⟩ := node_of_quote hq
    exact ⟨n, hn, by rw [← horder]; rfl⟩

/-- Which submissions are not tracked: duplicates, orders that are filled at once, and limit orders
that are killed. -/
def LeavesNoTrack (b : L3OrderBook) (o : Order) : Prop :=
  o.id ∈ b.orderIndex ∨ o.quantity = 0 ∨
    0 < o.quantity ∧ (o.quantity ≤ b.tradableQty o ∨ o.type = .limit ∧ o.tif = .fok)

instance (b : L3OrderBook) (o : Order) : Decidable (b.LeavesNoTrack o) :=
  inferInstanceAs (Decidable (_ ∨ _ ∨ _))

theorem RepInv.tracked_iff (h : b.RepInv) (o : Order) (ts : Timestamp) :
    MatchingEngine.Tracked (b.addOrder o ts).rpt ↔ ¬ b.LeavesNoTrack o := by
  unfold MatchingEngine.Tracked LeavesNoTrack
  by_cases hid : b.ladder.Has o.id
  · rw [h.addOrder_of_has hid, h.mem_index]
    simp [hid]
  · have hstatus : (b.addOrder o ts).rpt.status = (reported o (b.ladder.remainder o)).1 :=
      congrArg Prod.fst (h.outcome hid ts).rpt
    have hliq := h.inv.liquidity_nonneg o
    rw [hstatus, ne_eq, ne_eq, reported_rejected_iff, reported_filled_iff,
      h.inv.remainder_eq_zero_iff, h.inv.remainder_pos_iff, h.mem_index, tradableQty_eq]
    by_cases hkilled : o.type = .limit ∧ o.tif = .fok
    · simp only [hid, hkilled, and_self, and_true, false_or, or_true]
      omega
    · simp only [hid, hkilled, and_false, false_or, or_false, not_false_eq_true, true_and]

theorem RepInv.mem_index_add (h : b.RepInv) {o : Order} {ts : Timestamp} {id : OrderId}
    (hid : id ∈ (b.addOrder o ts).book.orderIndex) :
    id ∈ b.orderIndex ∨ id = o.id ∧ ¬ b.LeavesNoTrack o := by
  have hr := h.addOrder o ts
  rw [hr.repInv.mem_index, hr.ladder] at hid
  obtain ⟨q, hq, rfl⟩ := hid
  by_cases hdup : b.ladder.Has o.id
  · rw [Ladder.add, if_pos hdup] at hq
    exact Or.inl ((h.mem_index _).mpr ⟨q, hq, rfl⟩)
  · rcases h.inv.mem_add hdup hq with ⟨hrests, rfl⟩ | ⟨-, r, hrmem, hf, -, -⟩
    · refine Or.inr ⟨rfl, ?_⟩
      rw [← h.tracked_iff o ts]
      have hstatus : (b.addOrder o ts).rpt.status = (reported o (b.ladder.remainder o)).1 :=
        congrArg Prod.fst (h.outcome hdup ts).rpt
      rw [MatchingEngine.Tracked, hstatus, reported_of_rests hrests]
      split_ifs <;> simp
    · exact Or.inl ((h.mem_index _).mpr ⟨r, hrmem, congrArg (·.order.id) hf.symm⟩)

theorem mem_index_cancel (b : L3OrderBook) (id id' : OrderId) (ts : Timestamp) :
    id' ∈ (b.cancelOrder id ts).book.orderIndex ↔ id' ∈ b.orderIndex ∧ id' ≠ id := by
  unfold cancelOrder
  cases hl : b.orderIndex.lookup id with
  | none =>
    refine ⟨fun hid => ⟨hid, ?_⟩, And.left⟩
    rintro rfl
    exact Finmap.lookup_eq_none.mp hl hid
  | some loc =>
    change id' ∈ b.orderIndex.erase id ↔ _
    rw [Finmap.mem_erase]
    exact and_comm

theorem RepInv.mem_index_replace (h : b.RepInv) {req : ReplaceRequest} {ts : Timestamp}
    {id : OrderId} (hid : id ∈ (b.replaceOrder req ts).book.orderIndex) : id ∈ b.orderIndex := by
  by_cases hhas : b.ladder.Has req.orderId
  · obtain ⟨q, hq, hqid⟩ := hhas
    rw [(h.replaceOrder_eq hq hqid ts).1] at hid
    rcases (h.cancelOrder {} req.orderId ts).repInv.mem_index_add hid with hid | ⟨rfl, -⟩
    · exact ((b.mem_index_cancel _ _ _).mp hid).1
    · exact (h.mem_index _).mpr ⟨q, hq, hqid⟩
  · rwa [h.replaceOrder_of_not_has hhas] at hid

end L3OrderBook

/-! ## Routes -/

namespace MatchingEngine

/-- A cancel that carries only the id of an order that rests in a book is answered with Canceled and
takes that order off that book. -/
def Routed (e : MatchingEngine) : Prop :=
  ∀ s b, e.book s = some b → ∀ id, b.HasOrder id → ∀ traderId ts publishedAt,
    (e.processCancel { orderId := id, traderId } ts publishedAt).rpt.status = .canceled ∧
    ∃ b', (e.processCancel { orderId := id, traderId } ts publishedAt).engine.book s = some b' ∧
      ¬ b'.HasOrder id

/-- A cancel that carries only the id of an order that rests in a book is answered with Canceled and
takes an order with that id off a book. -/
def FindsOrders (e : MatchingEngine) : Prop :=
  ∀ s b, e.book s = some b → ∀ id, b.HasOrder id → ∀ traderId ts publishedAt,
    (e.processCancel { orderId := id, traderId } ts publishedAt).rpt.status = .canceled ∧
    ∃ s' b₀ b', e.book s' = some b₀ ∧ b₀.HasOrder id ∧
      (e.processCancel { orderId := id, traderId } ts publishedAt).engine.book s' = some b' ∧
      ¬ b'.HasOrder id

theorem Routed.findsOrders {e : MatchingEngine} (h : e.Routed) : e.FindsOrders := by
  intro s b hb id hid traderId ts publishedAt
  obtain ⟨hstatus, b', hb', hnot⟩ := h s b hb id hid traderId ts publishedAt
  exact ⟨hstatus, s, b, b', hb, hid, hb', hnot⟩

/-- The index sends every resting id to the book it rests in. -/
def Indexed (e : MatchingEngine) : Prop :=
  ∀ s b, e.book s = some b → ∀ id ∈ b.orderIndex, e.orderSymbolIndex.lookup id = some s

theorem BooksReachable.hasOrder_iff {e : MatchingEngine} (h : e.BooksReachable) {s : Symbol}
    {b : L3OrderBook} (hb : e.book s = some b) (id : OrderId) :
    b.HasOrder id ↔ id ∈ b.orderIndex :=
  (L3OrderBook.hasOrder_iff b id).trans ((h.repInv hb).mem_index id).symm

theorem BooksReachable.routed_iff {e : MatchingEngine} (h : e.BooksReachable) :
    e.Routed ↔ e.Indexed := by
  constructor
  · intro hrouted s b hb id hid
    obtain ⟨hstatus, b', hb', hnot⟩ := hrouted s b hb id ((h.hasOrder_iff hb id).mpr hid) 0 0 0
    cases hl : e.orderSymbolIndex.lookup id with
    | none =>
      have hroute : e.route { orderId := id } = none := by simp [route, hl]
      rw [processCancel, hroute] at hstatus
      cases hstatus
    | some s' =>
      by_contra hne
      have hother : s ≠ s' := fun hs => hne (by rw [hs])
      have hroute : e.route { orderId := id } = some s' := by simp [route, hl]
      -- the request goes to another book
      have hsame : (e.step (.cancel { orderId := id } 0 0)).book s = some b := by
        cases hd : e.dispatch (.cancel { orderId := id } 0 0) with
        | none =>
          rcases (dispatch_none hd).2 s with heq | ⟨hnone, -⟩
          · rw [heq, hb]
          · rw [hb] at hnone
            cases hnone
        | some c =>
          have hsymbol : c.symbol = s' := by
            cases reaches_of_dispatch hd with
            | cancel hroute' => exact Option.some_inj.mp (hroute'.symm.trans hroute)
          rw [(dispatch_some hd).books, hsymbol, if_neg hother, hb]
      obtain rfl := Option.some_inj.mp (hb'.symm.trans hsame)
      exact hnot ((h.hasOrder_iff hb id).mpr hid)
  · intro hindexed s b hb id hid traderId ts publishedAt
    have hmem := (h.hasOrder_iff hb id).mp hid
    have hl := hindexed s b hb id hmem
    have hrep := h.repInv hb
    obtain ⟨q, hq, rfl⟩ := (hrep.mem_index id).mp hmem
    obtain ⟨state, hs, rfl⟩ := book_eq_some.mp hb
    have hroute : e.route { orderId := q.order.id, traderId } = some s := by simp [route, hl]
    have hc := hrep.cancelOrder {} q.order.id ts
    rw [processCancel, hroute]
    simp only [hs]
    refine ⟨congrArg (·.rpt.status) (hrep.cancelOrder_eq hq ts),
      (state.book.cancelOrder q.order.id ts).book, ?_, ?_⟩
    · rw [book_report, book_untrackOrder, book_afterCall, if_pos rfl]
    · rw [L3OrderBook.hasOrder_iff, hc.ladder]
      exact Ladder.not_has_cancel _ _

/-- A new order is not tracked under an id that rests in another book. -/
def KeepsRoutes (e : MatchingEngine) : EngineOp → Prop
  | .newOrder order _ _ =>
    ∀ b, e.book order.symbol = some b → (e.checkRisk order).1 = .none →
      b.LeavesNoTrack order ∨
        ∀ s b', s ≠ order.symbol → e.book s = some b' → order.id ∉ b'.orderIndex
  | _ => True

instance (e : MatchingEngine) : ∀ op, Decidable (e.KeepsRoutes op)
  | .newOrder order _ _ =>
    decidable_of_iff (∀ b ∈ e.book order.symbol, (e.checkRisk order).1 = .none →
      b.LeavesNoTrack order ∨ ∀ s ∈ e.symbols.keys, s ≠ order.symbol → ∀ b' ∈ e.book s,
        order.id ∉ b'.orderIndex) <| by
      refine forall_congr' fun b => forall_congr' fun _ => forall_congr' fun _ => or_congr_right ?_
      constructor
      · intro hkeys s b' hs hb'
        obtain ⟨state, hstate, -⟩ := book_eq_some.mp hb'
        exact hkeys s (Finmap.mem_keys.mpr (Finmap.mem_of_lookup_eq_some hstate)) hs b' hb'
      · exact fun hall s _ hs b' hb' => hall s b' hs hb'
  | .addSymbol _ | .cancel .. | .replace .. | .killTrader _ | .killAll | .unkillTrader _ | .unkillAll =>
    isTrue trivial

section Step
variable {e : MatchingEngine} (h : e.Indexed) (hbooks : e.BooksReachable)
include h

theorem Indexed.of_dispatch_none {op : EngineOp} (hd : e.dispatch op = none) :
    (e.step op).Indexed := by
  intro s b hb id hid
  rcases (dispatch_none hd).2 s with hsame | ⟨-, hnew⟩
  · rw [(symbols_of_dispatch_none hd).1]
    exact h s b (hsame ▸ hb) id hid
  · obtain rfl := Option.some_inj.mp (hb.symm.trans hnew)
    exact absurd hid Finmap.notMem_empty

theorem Indexed.of_dispatch {op : EngineOp} {c : BookCall} (hd : e.dispatch op = some c)
    (hhere : ∀ id ∈ (c.book.step c.op).book.orderIndex,
      (e.indexAfter c).lookup id = some c.symbol)
    (hothers : ∀ s b id, s ≠ c.symbol → e.book s = some b → id ∈ b.orderIndex →
      (e.indexAfter c).lookup id = e.orderSymbolIndex.lookup id) : (e.step op).Indexed := by
  intro s b hb id hid
  rw [(dispatch_some hd).books] at hb
  rw [index_of_dispatch hd]
  split_ifs at hb with hs
  · obtain rfl := Option.some_inj.mp hb
    rw [hs]
    exact hhere id hid
  · rw [hothers s b id hs hb hid]
    exact h s b hb id hid

include hbooks

theorem Indexed.newOrder_iff {order : Order} {ts publishedAt : Timestamp} {b : L3OrderBook}
    (hb : e.book order.symbol = some b)
    (hd : e.dispatch (.newOrder order ts publishedAt) = some ⟨order.symbol, b, .add order ts⟩) :
    (e.step (.newOrder order ts publishedAt)).Indexed ↔ b.LeavesNoTrack order ∨
      ∀ s b', s ≠ order.symbol → e.book s = some b' → order.id ∉ b'.orderIndex := by
  have hrep := hbooks.repInv hb
  have htracked := hrep.tracked_iff order ts
  have hindex := e.indexAfter_add order.symbol b order ts
  constructor
  · intro hafter
    by_contra hcon
    rw [not_or] at hcon
    obtain ⟨htrack, hrests⟩ := hcon
    push Not at hrests
    obtain ⟨s, b', hs, hb', hid⟩ := hrests
    have hlook := hafter s b' (by rw [(dispatch_some hd).books, if_neg hs, hb']) order.id hid
    rw [index_of_dispatch hd, hindex, if_pos (htracked.mpr htrack), Finmap.lookup_insert] at hlook
    exact hs (Option.some_inj.mp hlook).symm
  · intro hkeep
    apply h.of_dispatch hd <;> rw [hindex]
    · intro id hid
      rcases hrep.mem_index_add hid with hid' | ⟨rfl, htrack⟩
      · have hlook := h _ b hb id hid'
        split_ifs
        · by_cases hne : id = order.id
          · rw [hne, Finmap.lookup_insert]
          · rw [Finmap.lookup_insert_of_ne _ hne, hlook]
        · exact hlook
      · rw [if_pos (htracked.mpr htrack), Finmap.lookup_insert]
    · intro s b' id hs hb' hid
      split_ifs with htrack
      · have hne : id ≠ order.id := by
          rintro rfl
          exact (hkeep.resolve_left (htracked.mp htrack)) s b' hs hb' hid
        rw [Finmap.lookup_insert_of_ne _ hne]
      · rfl

theorem Indexed.cancel {req : CancelRequest} {ts publishedAt : Timestamp} {symbol : Symbol}
    {b : L3OrderBook} (hb : e.book symbol = some b)
    (hd : e.dispatch (.cancel req ts publishedAt) = some ⟨symbol, b, .cancel req.orderId ts⟩) :
    (e.step (.cancel req ts publishedAt)).Indexed := by
  have hrep := hbooks.repInv hb
  have hindex := e.indexAfter_cancel symbol b req.orderId ts
  -- a canceled id was routed to this book
  have hcanceled : (b.cancelOrder req.orderId ts).rpt.status = .canceled →
      e.orderSymbolIndex.lookup req.orderId = some symbol := by
    intro hstatus
    apply h symbol b hb
    by_contra hnot
    rw [hrep.mem_index] at hnot
    rw [hrep.cancelOrder_of_not_has hnot] at hstatus
    cases hstatus
  apply h.of_dispatch hd <;> rw [hindex]
  · intro id hid
    obtain ⟨hid, hne⟩ := (b.mem_index_cancel _ _ _).mp hid
    split_ifs
    · rw [Finmap.lookup_erase_ne hne, h symbol b hb id hid]
    · exact h symbol b hb id hid
  · intro s b' id hs hb' hid
    split_ifs with hstatus
    · apply Finmap.lookup_erase_ne
      rintro rfl
      exact hs (Option.some_inj.mp ((h s b' hb' _ hid).symm.trans (hcanceled hstatus)))
    · rfl

theorem Indexed.replace {req : ReplaceRequest} {ts publishedAt : Timestamp} {b : L3OrderBook}
    (hb : e.book req.symbol = some b)
    (hd : e.dispatch (.replace req ts publishedAt) = some ⟨req.symbol, b, .replace req ts⟩) :
    (e.step (.replace req ts publishedAt)).Indexed :=
  h.of_dispatch hd
    (fun id hid => h _ b hb id ((hbooks.repInv hb).mem_index_replace hid)) fun _ _ _ _ _ _ => rfl

theorem Indexed.step_iff (op : EngineOp) : (e.step op).Indexed ↔ e.KeepsRoutes op := by
  cases hd : e.dispatch op with
  | none =>
    apply iff_of_true (h.of_dispatch_none hd)
    cases op with
    | newOrder order ts publishedAt =>
      intro b hb hok
      exact absurd (.newOrder hb hok) (not_reaches hd _)
    | _ => trivial
  | some c =>
    cases reaches_of_dispatch hd with
    | newOrder hb hok =>
      rw [h.newOrder_iff hbooks hb hd, KeepsRoutes, forall_book_iff hb, forall_prop_of_true hok]
    | cancel _ hb => exact iff_of_true (h.cancel hbooks hb hd) trivial
    | replace hb => exact iff_of_true (h.replace hbooks hb hd) trivial

end Step

/-! ## Sessions -/

/-- Along a session every resting order can be canceled by its id exactly when no new order is tracked
under an id that rests in another book, and then a cancel by id always finds an order. -/
theorem along_routed_iff (calls : List SessionCall) :
    (Run.Along stepCall (fun e call => (e.stepCall call).Routed) {} calls ↔
      Run.Along stepCall (fun e call => (e.withRisk call.risk).KeepsRoutes call.op) {} calls) ∧
    (Run.Along stepCall (fun e call => (e.withRisk call.risk).KeepsRoutes call.op) {} calls →
      Run.Along stepCall (fun e call => (e.stepCall call).FindsOrders) {} calls) := by
  have hrouted := along_stepCall_iff (P := Routed) (J := Indexed) (C := KeepsRoutes)
    (fun _ h => h.routed_iff) (fun _ _ h => h) (fun _ hbooks h op => h.step_iff hbooks op)
    (fun _ _ h => absurd h nofun) calls
  refine ⟨hrouted, fun hkeep => (hrouted.mpr hkeep).mono fun e call h => h.findsOrders⟩

/-- One id on two books: a bid on each, and then the second one is canceled by its id, which forgets
the first one too. -/
def sharedId : List SessionCall :=
  let bid (symbol : Symbol) : EngineOp := .newOrder { id := 1, symbol, price := 10, quantity := 5 } 0 0
  [.addSymbol ⟨.replicate 8 65⟩, .addSymbol ⟨.replicate 8 66⟩, bid ⟨.replicate 8 65⟩,
    bid ⟨.replicate 8 66⟩, .cancel { orderId := 1 } 0 0].map (SessionCall.mk none)

end MatchingEngine

/-! ## On 64-bit integers -/

namespace MachineEngine

/-- **When cancels are routed**: along a session in the range every resting order can be canceled by
its id exactly when no new order is tracked under an id that rests in another book, and then a cancel
by id always finds an order. -/
theorem session_routed_iff (calls : List SessionCall)
    (hrange : Run.Along stepCall CallInRange {} calls) :
    (Run.Along stepCall (fun e call => (stepCall e call).Routed) {} calls ↔
      Run.Along stepCall (fun e call => (e.withRisk call.risk).KeepsRoutes call.op) {} calls) ∧
    (Run.Along stepCall (fun e call => (e.withRisk call.risk).KeepsRoutes call.op) {} calls →
      Run.Along stepCall (fun e call => (stepCall e call).FindsOrders) {} calls) := by
  rw [along_state_iff hrange MatchingEngine.Routed, along_state_iff hrange MatchingEngine.FindsOrders,
    along_condition_iff hrange]
  exact MatchingEngine.along_routed_iff calls

/-- Two bids on two books, an order that fills the first one, and a cancel of the second one by its
id. -/
theorem session_routed_iff_books :
    let order (id : OrderId) (side : Side) (symbol : Symbol) : EngineOp :=
      .newOrder { id, symbol, side, price := 10, quantity := 5 } 0 0
    let calls := sessionOf (.start {})
      [.addSymbol ⟨.replicate 8 65⟩, .addSymbol ⟨.replicate 8 66⟩, order 1 .buy ⟨.replicate 8 65⟩,
        order 2 .buy ⟨.replicate 8 66⟩, order 2 .sell ⟨.replicate 8 65⟩, .cancel { orderId := 2 } 0 0]
    Run.Along stepCall (fun e call => (stepCall e call).Routed) {} calls ∧
      Run.Along stepCall (fun e call => (stepCall e call).FindsOrders) {} calls := by
  exact ⟨((session_routed_iff _ (by decide)).1).mpr (by decide),
    (session_routed_iff _ (by decide)).2 (by decide)⟩

/-- A cancel by id misses the order that still rests. -/
theorem session_loses_order : ¬ ∀ calls, (session calls).FindsOrders := by
  intro h
  have hrests : ((session MatchingEngine.sharedId).book ⟨.replicate 8 65⟩).any
      (fun b => b.HasOrder 1) := by decide
  have hstatus : ((session MatchingEngine.sharedId).processCancel { orderId := 1 } 0 0).rpt.status =
      .rejected := by decide
  obtain ⟨b, hb, hid⟩ := Option.any_eq_true _ _ |>.mp hrests
  have hfound := (h MatchingEngine.sharedId _ b hb 1 (of_decide_eq_true hid) 0 0 0).1
  rw [hstatus] at hfound
  cases hfound

end MachineEngine

end HftSdk
