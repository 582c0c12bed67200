import HftSdk.Market.MachineEngine

/-!
# The risk gate

What a request may do for its sender it should do only through the checks of the risk engine
(`Guarded`). A new order passes them, a cancel brings nothing onto a book, and the new order that a
replace submits is not checked. `run_gate_iff` says that the gate holds all along a run exactly when
every replacement of the run would have passed it (`ReplaceGated`), and
`MachineEngine.run_guarded_iff` that it does so in the code's 64-bit integers, as long as they hold
what the checks project.
-/

namespace HftSdk

open Sweep

/-! ## What a call brings to a book -/

/-- `n` is one of the orders `ns`, with no more to trade than it has there. -/
def Stood (ns : OrderQueue) (n : ListNode L3Order) : Prop :=
  ∃ m ∈ ns, m.addr = n.addr ∧ m.val.id = n.val.id ∧ m.val.traderId = n.val.traderId ∧
    m.val.price = n.val.price ∧ n.val.openQty ≤ m.val.openQty

instance (ns : OrderQueue) (n : ListNode L3Order) : Decidable (Stood ns n) :=
  inferInstanceAs (Decidable (∃ m ∈ ns, _))

theorem stood_of_mem {ns : OrderQueue} {n : ListNode L3Order} (hn : n ∈ ns) : Stood ns n :=
  ⟨n, hn, rfl, rfl, rfl, rfl, le_rfl⟩

theorem Stood.trans {ns ms : OrderQueue} {n : ListNode L3Order} (h : Stood ms n)
    (hms : ∀ m ∈ ms, Stood ns m) : Stood ns n := by
  obtain ⟨m, hm, ha, hid, ht, hp, ho⟩ := h
  obtain ⟨k, hk, ha', hid', ht', hp', ho'⟩ := hms m hm
  exact ⟨k, hk, ha'.trans ha, hid'.trans hid, ht'.trans ht, hp'.trans hp, ho.trans ho'⟩

namespace L3OrderBook

variable {b : L3OrderBook}

theorem stood_of_frame {q r : Quote} {n : ListNode L3Order} (hr : r ∈ b.ladder.all)
    (hf : q.frame = r.frame) (hle : q.openQty ≤ r.openQty) (haddr : q.addr = n.addr)
    (horder : q.order = n.val.unposed) : Stood b.nodes n := by
  obtain ⟨m, hm, hma, hmo⟩ := node_of_quote hr
  have hfield : ∀ {β : Type} (f : L3Order → β), (∀ o : L3Order, f o.unposed = f o) →
      f r.order = f q.order → f m.val = f n.val := fun f hf h => by
    rw [← hf m.val, hmo, h, horder, hf]
  refine ⟨m, hm, ?_, hfield (·.id) (fun _ => rfl) (congrArg (·.order.id) hf.symm),
    hfield (·.traderId) (fun _ => rfl) (congrArg (·.order.traderId) hf.symm),
    hfield (·.price) (fun _ => rfl) (congrArg (·.order.price) hf.symm), ?_⟩
  · rw [hma, ← haddr, Quote.addr_of_frame hf]
  · have hopen : ∀ o : L3Order, o.unposed.openQty = o.openQty := fun _ => rfl
    rw [← hopen, ← horder, ← hopen m.val, hmo]
    exact hle

/-- What the submission of `o` may bring: trades with its trader coming in, and at most one new
order, a limit order under its price. -/
structure Brings (b : L3OrderBook) (o : Order) (r : BookResult) : Prop where
  traded : ∀ tr ∈ r.trades, tr.incomingTrader = o.traderId ∧ 0 < o.quantity
  placed : ∀ n ∈ r.book.nodes, Stood b.nodes n ∨
    n.val.traderId = o.traderId ∧ n.val.price = o.price ∧ o.type = .limit ∧ 0 < o.quantity

theorem RepInv.brings_add (h : b.RepInv) (o : Order) (ts : Timestamp) :
    b.Brings o (b.addOrder o ts) := by
  by_cases hid : b.ladder.Has o.id
  · rw [h.addOrder_of_has hid]
    exact ⟨fun _ htr => absurd htr List.not_mem_nil, fun n hn => Or.inl (stood_of_mem hn)⟩
  · have hr := h.addOrder o ts
    have htrades := hr.trades
    rw [Ladder.addFills, if_neg hid] at htrades
    constructor
    · intro tr htr
      rw [htrades] at htr
      refine ⟨(BookCore.mem_fillTrades htr).2.1, ?_⟩
      by_contra hq
      rw [(h.inv.remainder_of_nonpos (not_lt.mp hq)).1] at htr
      exact absurd htr List.not_mem_nil
    · intro n hn
      obtain ⟨q, hq, haddr, horder⟩ := quote_of_node hn
      rw [hr.ladder] at hq
      rcases h.inv.mem_add hid hq with ⟨hrests, rfl⟩ | ⟨-, r, hrmem, hf, hopen, -⟩
      · refine Or.inr ⟨(congrArg L3Order.traderId horder).symm, (congrArg L3Order.price horder).symm,
          hrests.2.1, ?_⟩
        have := h.inv.taken_nonneg o
        have hrem := hrests.1
        rw [Ladder.remainder] at hrem
        omega
      · have := h.inv.takenFrom_nonneg o r.order.id
        exact Or.inl (stood_of_frame hrmem hf (by omega) haddr horder)

theorem RepInv.stood_cancel (h : b.RepInv) (id : OrderId) (ts : Timestamp) :
    ∀ n ∈ (b.cancelOrder id ts).book.nodes, Stood b.nodes n := by
  intro n hn
  obtain ⟨q, hq, haddr, horder⟩ := quote_of_node hn
  rw [(h.cancelOrder {} id ts).ladder] at hq
  obtain ⟨s, hq⟩ := Ladder.mem_all.mp hq
  have hold := Ladder.mem_all.mpr ⟨s, List.mem_of_mem_filter hq⟩
  exact stood_of_frame hold rfl le_rfl haddr horder

theorem RepInv.brings_replace (h : b.RepInv) {req : ReplaceRequest} {loc : OrderLocation}
    (hloc : b.orderIndex.lookup req.orderId = some loc) (ts : Timestamp) :
    b.Brings (replacement req loc.side ts) (b.replaceOrder req ts) := by
  obtain ⟨q, hq, hid, hside⟩ := h.exists_of_lookup hloc
  rw [← hside]
  obtain ⟨hbook, htrades, -⟩ := h.replaceOrder_eq hq hid ts
  have hb := (h.cancelOrder {} req.orderId ts).repInv.brings_add (replacement req q.order.side ts) ts
  refine ⟨fun tr htr => hb.traded tr (htrades ▸ htr), fun n hn => ?_⟩
  rw [hbook] at hn
  exact (hb.placed n hn).imp_left fun hs => hs.trans (h.stood_cancel req.orderId ts)

theorem RepInv.replace_acts (h : b.RepInv) {req : ReplaceRequest} {loc : OrderLocation}
    (hloc : b.orderIndex.lookup req.orderId = some loc) (hqty : 0 < req.newQty) (ts : Timestamp) :
    (∃ tr, tr ∈ (b.replaceOrder req ts).trades) ∨
      ∃ n ∈ (b.replaceOrder req ts).book.nodes, ¬ Stood b.nodes n := by
  obtain ⟨q, hq, hid, -⟩ := h.exists_of_lookup hloc
  obtain ⟨hbook, htrades, -⟩ := h.replaceOrder_eq hq hid ts
  have hc := h.cancelOrder {} req.orderId ts
  set o := replacement req q.order.side ts
  have hnot : ¬ (b.cancelOrder req.orderId ts).book.ladder.Has o.id :=
    hc.ladder ▸ Ladder.not_has_cancel _ _
  have hr := hc.repInv.addOrder o ts
  set c := (b.cancelOrder req.orderId ts).book
  rw [hbook, htrades, hr.trades, Ladder.addFills, if_neg hnot]
  cases hfills : c.ladder.fillsOf o with
  | cons x fs => exact Or.inl ⟨_, List.mem_cons_self⟩
  | nil =>
    have hrests : c.ladder.Rests o := by
      refine ⟨?_, rfl, Or.inl rfl⟩
      rw [Ladder.remainder, hfills, taken_nil, Int.sub_zero]
      exact hqty
    have hmem : Ladder.newQuote o (c.ladder.remainder o) ts c.nextAddr ∈
        (c.addOrder o ts).book.ladder.all := by
      rw [hr.ladder, Ladder.add, if_neg hnot, if_pos hrests]
      exact (Ladder.rest_perm _ _ _ _).mem_iff.mpr List.mem_cons_self
    obtain ⟨n, hn, haddr, -⟩ := node_of_quote hmem
    refine Or.inr ⟨n, hn, ?_⟩
    -- the new order has a list node that no order had before
    rintro ⟨m, hm, hma, -⟩
    obtain ⟨r, hr, hra, -⟩ := quote_of_node hm
    have hfresh := h.inv.fresh r hr
    have hstamp : c.nextAddr = b.nextAddr := congrArg Ladder.stamp hc.ladder
    have haddr : n.addr = c.nextAddr := haddr
    have hstamp' : b.ladder.stamp = b.nextAddr := rfl
    omega

end L3OrderBook

/-! ## The gate -/

/-- The trader who sends a request for an order. -/
def EngineOp.sender : EngineOp → Option TraderId
  | .newOrder order _ _ => some order.traderId
  | .replace req _ _ => some req.traderId
  | _ => none

namespace MatchingEngine

/-- The orders that rest on the book of a symbol. -/
def resting (e : MatchingEngine) (s : Symbol) : OrderQueue :=
  match e.book s with
  | none => []
  | some b => b.nodes

/-- The order that a request wants on a book: a new one, or the replacement of one that rests. -/
def requested (e : MatchingEngine) : EngineOp → Option Order
  | .newOrder order _ _ => some order
  | .replace req ts _ =>
    (e.book req.symbol).bind fun b =>
      (b.orderIndex.lookup req.orderId).map fun loc => L3OrderBook.replacement req loc.side ts
  | _ => none

/-- The request wants an order of `t`, and at this moment the kill switch is off for `t`, the order
has a positive limit price and quantity, and it is within the position limits of `t`. -/
def Allowed (e : MatchingEngine) (op : EngineOp) (t : TraderId) : Prop :=
  ∃ risk order, e.riskEngine = some risk ∧ e.requested op = some order ∧ order.traderId = t ∧
    risk.Gate order

/-- Nothing happens for a trader that the gate does not allow, in a request with the given outcome:
the engine after it and the callbacks made in it. -/
structure Guarded (e : MatchingEngine) (op : EngineOp) (r : MatchingEngine × List EngineEvent) :
    Prop where
  /-- Whoever comes into a trade is allowed. -/
  traded : ∀ tr ∈ r.2.filterMap EngineEvent.trade?, e.Allowed op tr.incomingTrader
  /-- Whoever gets quantity onto a book is allowed. -/
  placed : ∀ s, ∀ n ∈ r.1.resting s, Stood (e.resting s) n ∨ e.Allowed op n.val.traderId
  /-- Nothing happens at the request of a killed trader. -/
  killed : ∀ risk t, e.riskEngine = some risk → op.sender = some t → risk.isKilled t = true →
    r.2.filterMap EngineEvent.trade? = [] ∧ ∀ s, ∀ n ∈ r.1.resting s, Stood (e.resting s) n

/-- Every resting order has a positive price and something to trade. -/
def Positive (e : MatchingEngine) : Prop :=
  ∀ s, ∀ n ∈ e.resting s, 0 < n.val.price ∧ 0 < n.val.visibleQty + n.val.hiddenQty

/-- The replacement of an order that rests would pass the gate, unless it is for no quantity. -/
def ReplaceGated (e : MatchingEngine) : EngineOp → Prop
  | .replace req ts _ =>
    ∀ risk ∈ e.riskEngine, ∀ b ∈ e.book req.symbol, ∀ loc ∈ b.orderIndex.lookup req.orderId,
      0 < req.newQty → risk.Gate (L3OrderBook.replacement req loc.side ts)
  | _ => True

instance (e : MatchingEngine) : ∀ op, Decidable (e.ReplaceGated op)
  | .replace req _ _ => inferInstanceAs (Decidable (∀ risk ∈ e.riskEngine, ∀ b ∈ e.book req.symbol,
      ∀ loc ∈ b.orderIndex.lookup req.orderId, 0 < req.newQty → risk.Gate _))
  | .addSymbol _ | .newOrder .. | .cancel .. | .killTrader _ | .killAll | .unkillTrader _ | .unkillAll =>
    isTrue trivial

theorem resting_eq {e : MatchingEngine} {s : Symbol} {b : L3OrderBook} (hb : e.book s = some b) :
    e.resting s = b.nodes := by rw [resting, hb]

theorem Allowed.sender {e : MatchingEngine} {op : EngineOp} {t : TraderId} (h : e.Allowed op t) :
    op.sender = some t ∧ ∀ risk, e.riskEngine = some risk → risk.isKilled t = false := by
  obtain ⟨risk, order, hr, hreq, rfl, hg⟩ := h
  constructor
  · cases op with
    | newOrder o ts publishedAt =>
      obtain rfl := Option.some_inj.mp hreq
      rfl
    | replace req ts publishedAt =>
      obtain ⟨b, -, hreq⟩ := Option.bind_eq_some_iff.mp hreq
      obtain ⟨loc, -, rfl⟩ := Option.map_eq_some_iff.mp hreq
      rfl
    | _ => cases hreq
  · intro risk' hr'
    obtain rfl := Option.some_inj.mp (hr'.symm.trans hr)
    exact hg.alive

theorem guarded_mk {e : MatchingEngine} {op : EngineOp}
    (traded : ∀ tr ∈ e.tradesOf op, e.Allowed op tr.incomingTrader)
    (placed : ∀ s, ∀ n ∈ (e.step op).resting s,
      Stood (e.resting s) n ∨ e.Allowed op n.val.traderId) : e.Guarded op (e.perform op) := by
  refine ⟨traded, placed, fun risk t hr hsender hkilled => ?_⟩
  have hnot : ∀ t', ¬ e.Allowed op t' := by
    intro t' h
    obtain ⟨hs, halive⟩ := h.sender
    obtain rfl := Option.some_inj.mp (hsender.symm.trans hs)
    simp [halive risk hr] at hkilled
  refine ⟨List.eq_nil_iff_forall_not_mem.mpr fun tr htr => hnot _ (traded tr htr), fun s n hn => ?_⟩
  exact (placed s n hn).resolve_right (hnot _)

theorem Calls.resting {e : MatchingEngine} {op : EngineOp} {c : BookCall} (h : e.Calls op c)
    {s : Symbol} {n : ListNode L3Order} (hn : n ∈ (e.step op).resting s) :
    Stood (e.resting s) n ∨ s = c.symbol ∧ n ∈ (c.book.step c.op).book.nodes := by
  rw [MatchingEngine.resting, h.books] at hn
  by_cases hs : s = c.symbol
  · rw [if_pos hs] at hn
    exact Or.inr ⟨hs, hn⟩
  · rw [if_neg hs] at hn
    exact Or.inl (stood_of_mem hn)

theorem Inv.openQty_pos {e : MatchingEngine} (h : e.Inv) {s : Symbol} {n : ListNode L3Order}
    (hn : n ∈ e.resting s) : 0 < n.val.visibleQty + n.val.hiddenQty := by
  cases hb : e.book s with
  | none =>
    rw [resting, hb] at hn
    exact absurd hn List.not_mem_nil
  | some b =>
    rw [resting_eq hb] at hn
    obtain ⟨q, hq, -, horder⟩ := L3OrderBook.quote_of_node hn
    have hpos := ((h.repInv hb).inv.sound _ q ((h.repInv hb).inv.side_eq hq)).pos
    rw [Quote.openQty, horder] at hpos
    exact hpos

theorem Inv.positive_step {e : MatchingEngine} (h : e.Inv) (hpos : e.Positive) {op : EngineOp}
    (hnew : ∀ s, ∀ n ∈ (e.step op).resting s, Stood (e.resting s) n ∨ 0 < n.val.price) :
    (e.step op).Positive := by
  intro s n hn
  refine ⟨?_, (h.step op).openQty_pos hn⟩
  rcases hnew s n hn with ⟨m, hm, -, -, -, hp, -⟩ | hp
  · exact hp ▸ (hpos s m hm).1
  · exact hp

theorem Calls.guarded {e : MatchingEngine} {op : EngineOp} {c : BookCall} (h : e.Calls op c)
    (hinv : e.Inv) (hpos : e.Positive) {risk : RiskEngine} (hr : e.riskEngine = some risk) {o : Order}
    (hreq : e.requested op = some o) (hb : c.book.Brings o (c.book.step c.op))
    (hgate : 0 < o.quantity → risk.Gate o) : e.Guarded op (e.perform op) ∧ (e.step op).Positive := by
  have hallowed : 0 < o.quantity → e.Allowed op o.traderId := fun hq =>
    ⟨risk, o, hr, hreq, rfl, hgate hq⟩
  have hplaced : ∀ s, ∀ n ∈ (e.step op).resting s, Stood (e.resting s) n ∨
      n.val.traderId = o.traderId ∧ n.val.price = o.price ∧ o.type = .limit ∧ 0 < o.quantity := by
    intro s n hn
    rcases h.resting hn with hs | ⟨rfl, hn'⟩
    · exact Or.inl hs
    · rw [resting_eq h.here]
      exact hb.placed n hn'
  refine ⟨guarded_mk (fun tr htr => ?_) fun s n hn => ?_, hinv.positive_step hpos fun s n hn => ?_⟩
  · obtain ⟨ht, hq⟩ := hb.traded tr (h.trades ▸ htr)
    exact ht ▸ hallowed hq
  · exact (hplaced s n hn).imp_right fun ⟨ht, _, _, hq⟩ => ht ▸ hallowed hq
  · exact (hplaced s n hn).imp_right fun ⟨_, hp, hl, hq⟩ => hp ▸ (hgate hq).price hl

theorem Inv.guarded_of_quiet {e : MatchingEngine} (h : e.Inv) (hpos : e.Positive) {op : EngineOp}
    (htrades : e.tradesOf op = []) (hold : ∀ s, ∀ n ∈ (e.step op).resting s, Stood (e.resting s) n) :
    e.Guarded op (e.perform op) ∧ (e.step op).Positive :=
  ⟨guarded_mk (fun _ htr => absurd (htrades ▸ htr) List.not_mem_nil) fun s n hn =>
    Or.inl (hold s n hn), h.positive_step hpos fun s n hn => Or.inl (hold s n hn)⟩

theorem Inv.guarded_of_dispatch_none {e : MatchingEngine} (h : e.Inv) (hpos : e.Positive)
    {op : EngineOp} (hd : e.dispatch op = none) : e.Guarded op (e.perform op) ∧ (e.step op).Positive := by
  obtain ⟨htrades, hbooks⟩ := dispatch_none hd
  apply h.guarded_of_quiet hpos htrades
  intro s n hn
  rcases hbooks s with hsame | ⟨-, hnew⟩
  · rw [resting, hsame] at hn
    exact stood_of_mem hn
  · rw [resting_eq hnew] at hn
    exact absurd hn List.not_mem_nil

theorem Inv.guarded_of_replaceGated {e : MatchingEngine} (h : e.Inv) (hpos : e.Positive)
    {op : EngineOp} (hg : e.ReplaceGated op) : e.Guarded op (e.perform op) ∧ (e.step op).Positive := by
  obtain ⟨risk, hr⟩ := h.attached
  cases hd : e.dispatch op with
  | none => exact h.guarded_of_dispatch_none hpos hd
  | some c =>
    have hc := dispatch_some hd
    have hrep := h.repInv hc.here
    cases reaches_of_dispatch hd with
    | @newOrder order ts _ b hb hok =>
      rw [checkRisk_attached hr] at hok
      exact hc.guarded h hpos hr rfl (hrep.brings_add order ts) fun _ =>
        RiskEngine.gate_of_checkOrder hok
    | @cancel req ts _ symbol b _ hb =>
      refine h.guarded_of_quiet hpos (hc.trades.trans (hrep.cancelOrder {} req.orderId ts).trades)
        fun s n hn => ?_
      rcases hc.resting hn with hs | ⟨rfl, hn'⟩
      · exact hs
      · rw [resting_eq hc.here]
        exact hrep.stood_cancel req.orderId ts n hn'
    | @replace req ts _ b hb =>
      cases hl : b.orderIndex.lookup req.orderId with
      | none =>
        have heq := hrep.replaceOrder_of_not_has (hrep.not_has_of_lookup hl) ts
        refine h.guarded_of_quiet hpos (hc.trades.trans (congrArg BookResult.trades heq))
          fun s n hn => ?_
        rcases hc.resting hn with hs | ⟨rfl, hn'⟩
        · exact hs
        · rw [resting_eq hc.here]
          rw [L3OrderBook.step, heq] at hn'
          exact stood_of_mem hn'
      | some loc =>
        refine hc.guarded h hpos hr ?_ (hrep.brings_replace hl ts) fun hq => hg risk hr b hb loc hl hq
        rw [requested, hb, Option.bind_some, hl, Option.map_some]

theorem Inv.replaceGated_of_guarded {e : MatchingEngine} (h : e.Inv) {op : EngineOp}
    (hg : e.Guarded op (e.perform op)) : e.ReplaceGated op := by
  cases op with
  | replace req ts publishedAt =>
    intro risk hr b hb loc hl hq
    have hrep := h.repInv hb
    have hc : e.Calls (.replace req ts publishedAt) ⟨req.symbol, b, .replace req ts⟩ :=
      dispatch_some (by rw [dispatch, hb, Option.map_some])
    have hgate : ∀ t, e.Allowed (.replace req ts publishedAt) t →
        risk.Gate (L3OrderBook.replacement req loc.side ts) := by
      rintro t ⟨risk', o, hr', hreq, -, ho⟩
      rw [requested, hb, Option.bind_some, hl, Option.map_some] at hreq
      obtain rfl := Option.some_inj.mp hreq
      obtain rfl := Option.some_inj.mp (hr.symm.trans hr')
      exact ho
    rcases hrep.replace_acts hl hq ts with ⟨tr, htr⟩ | ⟨n, hn, hnew⟩
    · have htr : tr ∈ e.tradesOf (.replace req ts publishedAt) := hc.trades ▸ htr
      exact hgate _ (hg.traded tr htr)
    · have hn : n ∈ (e.step (.replace req ts publishedAt)).resting req.symbol := by
        rw [resting_eq ((hc.books _).trans (if_pos rfl))]
        exact hn
      exact hgate _ ((hg.placed _ n hn).resolve_left (resting_eq hb ▸ hnew))
  | _ => trivial

theorem positive_start (risk : RiskEngine) : (start risk).Positive :=
  fun _ _ hn => absurd hn List.not_mem_nil

/-- Nothing gets past the gate exactly along the runs whose replacements would all have passed it. Then
every resting order has a positive price, too. -/
theorem run_gate_iff (risk : RiskEngine) (ops : List EngineOp) :
    Run.Along step (fun e op => e.Guarded op (e.perform op) ∧ (e.step op).Positive) (start risk) ops ↔
      Run.Along step ReplaceGated (start risk) ops :=
  Run.along_congr (I := fun e => e.Inv ∧ e.Positive)
    (fun _ _ h => ⟨fun hg => h.1.replaceGated_of_guarded hg.1, h.1.guarded_of_replaceGated h.2⟩)
    (fun _ op h hg => ⟨h.1.step op, (h.1.guarded_of_replaceGated h.2 hg).2⟩)
    ⟨inv_start risk, positive_start risk⟩

end MatchingEngine

/-! ## On 64-bit integers -/

namespace MachineEngine

/-- **When nothing gets past the gate**: of the runs in the range, exactly along those whose
replacements would all have passed it. Then every resting order has a positive price, too. -/
theorem run_guarded_iff (risk : RiskEngine) (ops : List EngineOp)
    (hrange : Run.Along step InRange (MatchingEngine.start risk) ops) :
    Run.Along step (fun e op => e.Guarded op (perform e op) ∧ (step e op).Positive)
        (MatchingEngine.start risk) ops ↔
      Run.Along step MatchingEngine.ReplaceGated (MatchingEngine.start risk) ops := by
  have hbooks : (MatchingEngine.start risk).BooksReachable := fun _ _ hb => by cases hb
  have hguarded : Run.Along step (fun e op => e.Guarded op (perform e op) ∧ (step e op).Positive)
      (MatchingEngine.start risk) ops ↔ Run.Along MatchingEngine.step
        (fun e op => e.Guarded op (e.perform op) ∧ (e.step op).Positive)
        (MatchingEngine.start risk) ops := by
    apply along_step_iff hbooks hrange
    intro e op hagree
    have hstep : step e op = e.step op := congrArg Prod.fst hagree
    rw [hagree, hstep]
  have hgated := along_step_iff hbooks hrange (C := MatchingEngine.ReplaceGated) fun _ _ _ => Iff.rfl
  rw [hguarded, hgated]
  exact MatchingEngine.run_gate_iff risk ops

/-- A bid is replaced by one for more, within the limits, while another trader is killed. -/
theorem run_guarded_iff_replace :
    let ops : List EngineOp := [.addSymbol {},
      .newOrder { id := 1, traderId := 1, price := 100, quantity := 10 } 0 0, .killTrader 2,
      .replace { orderId := 1, traderId := 1, newPrice := 101, newQty := 20 } 1 1]
    Run.Along step (fun e op => e.Guarded op (perform e op) ∧ (step e op).Positive)
      (MatchingEngine.start {}) ops :=
  (run_guarded_iff {} _ (by decide)).mpr (by decide)

/-- A killed trader replaces an order of 10 by one of 20. -/
theorem killed_trader_replaces :
    ¬ ∀ risk ops, Run.Along step (fun e op => e.Guarded op (perform e op) ∧ (step e op).Positive)
      (MatchingEngine.start risk) ops := by
  intro h
  have hrun := h {} [.addSymbol {},
    .newOrder { id := 1, traderId := 1, price := 100, quantity := 10 } 0 0, .killTrader 1,
    .replace { orderId := 1, traderId := 1, newPrice := 101, newQty := 20 } 1 1]
  obtain ⟨-, hold⟩ := hrun.2.2.2.1.1.killed _ 1 rfl rfl (by decide)
  exact absurd (hold {}) (by decide)

end MachineEngine

end HftSdk
