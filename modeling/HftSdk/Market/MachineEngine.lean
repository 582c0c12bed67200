import HftSdk.Market.Rejections
import HftSdk.Orderbook.MachineBook
import HftSdk.Risk.MachinePositions

/-!
# The matching engine on 64-bit integers

What the engine adds up over several orders are the projected positions of the risk check and the
total of the fill-or-kill scan. Here both are computed on `Int64`, where they may wrap around. Stored
positions are sums too: wrapping commutes with addition, so the exact position stands for the stored
one.

`perform_eq`: a call does what it does on exact integers as long as nothing that it adds up leaves
the range (`InRange`). So what is proved of a session on exact integers holds of one here that stays
in the range (`along_iff`, `session_eq`).
-/

namespace HftSdk

namespace MachineEngine

open Machine (Fits stdAbs toInt_stdAbs lt_ofInt_iff toInt_ofInt_iff)

/-! ## The risk check -/

/-- The position the order leads to from `pos` when it is filled. -/
def projected (order : Order) (pos : Int64) : Int64 :=
  match order.side with
  | .buy => pos + .ofInt order.quantity
  | .sell => pos - .ofInt order.quantity

def checkPositionLimit (e : RiskEngine) (traderId : TraderId) (order : Order) :
    RejectReason × RiskEngine :=
  let limits := e.getLimits traderId
  let state := e.getState traderId
  let e := e.updateState traderId id
  let currentPos := state.positions.valueAt 0 order.symbol
  if .ofInt limits.maxPositionPerSymbol < stdAbs (projected order (.ofInt currentPos)) then
    (.positionLimit, e)
  else if .ofInt limits.maxNetPosition < stdAbs (projected order (.ofInt state.netPosition)) then
    (.positionLimit, e)
  else (.none, e)

def checkOrder (e : RiskEngine) (order : Order) : RejectReason × RiskEngine :=
  let e := { e with ordersChecked := e.ordersChecked + 1 }
  if e.checkKillSwitch order.traderId ≠ .none then e.reject (e.checkKillSwitch order.traderId)
  else if RiskEngine.checkPriceValidity order ≠ .none then
    e.reject (RiskEngine.checkPriceValidity order)
  else if RiskEngine.checkQuantityValidity order ≠ .none then
    e.reject (RiskEngine.checkQuantityValidity order)
  else
    let (r, e) := checkPositionLimit e order.traderId order
    if r ≠ .none then e.reject r
    else
      let (r, e) := e.checkRateLimit order.traderId order.submitTime
      if r ≠ .none then e.reject r else (.none, e)

/-! ## Requests -/

def checkRisk (e : MatchingEngine) (order : Order) : RejectReason × MatchingEngine :=
  match e.riskEngine with
  | none => (.none, e)
  | some risk =>
    let (reason, risk) := checkOrder risk order
    (reason, { e with riskEngine := some risk })

def submit (e : MatchingEngine) (state : SymbolState) (order : Order) (ts publishedAt : Timestamp) :
    EngineResult :=
  let r := MachineBook.submit state.book order ts
  (((e.afterCall order.symbol state r).trackOrder order r.rpt).fillRisk order r.rpt).report
    order.symbol r publishedAt

def processNewOrder (e : MatchingEngine) (order : Order) (ts publishedAt : Timestamp) :
    EngineResult :=
  let e := e.countOrder
  match e.symbols.lookup order.symbol with
  | none => e.rejectOrder order .unknownSymbol ts
  | some state =>
    let (reason, e) := checkRisk e order
    if reason ≠ .none then e.rejectOrder order reason ts else submit e state order ts publishedAt

/-- The engine after a call and the callbacks made in it. Nothing but a new order is checked or
scanned for. -/
def perform (e : MatchingEngine) : EngineOp → MatchingEngine × List EngineEvent
  | .newOrder order ts publishedAt =>
    let r := processNewOrder e order ts publishedAt
    (r.engine, r.events)
  | op => e.perform op

/-- The status of the report that a request returns. -/
def statusOf (e : MatchingEngine) : EngineOp → Option OrderStatus
  | .newOrder order ts publishedAt => some (processNewOrder e order ts publishedAt).rpt.status
  | op => (e.reportOf op).map ExecutionReport.status

def step (e : MatchingEngine) (op : EngineOp) : MatchingEngine := (perform e op).1

def stepCall (e : MatchingEngine) (call : SessionCall) : MatchingEngine :=
  step (e.withRisk call.risk) call.op

/-- The engine after a session. -/
def session (calls : List SessionCall) : MatchingEngine := calls.foldl stepCall {}

/-- The session of a run of an engine: every call finds the risk engine that the one before it
left. -/
def sessionOf (e : MatchingEngine) : List EngineOp → List SessionCall
  | [] => []
  | op :: ops => ⟨e.riskEngine, op⟩ :: sessionOf (step e op) ops

/-- **A run is a session**: what holds at its calls holds at those of the session. -/
theorem along_sessionOf (C : MatchingEngine → EngineOp → Prop) (e : MatchingEngine)
    {e₀ : MatchingEngine} (h : e₀.withRisk e.riskEngine = e) (ops : List EngineOp) :
    Run.Along stepCall (fun e call => C (e.withRisk call.risk) call.op) e₀ (sessionOf e ops) ↔
      Run.Along step C e ops := by
  induction ops generalizing e e₀ with
  | nil => exact Iff.rfl
  | cons op ops ih =>
    rw [sessionOf, Run.Along, Run.Along, stepCall, h]
    exact and_congr_right fun _ => ih (step e op) rfl

/-! ## In the range -/

/-- Limits are `int64_t`s, and so are the projected positions and their absolute values. -/
def ProjectionsFit (risk : RiskEngine) (order : Order) : Prop :=
  Fits (risk.getLimits order.traderId).maxPositionPerSymbol ∧
    Fits (risk.getLimits order.traderId).maxNetPosition ∧
    |RiskEngine.projected order (risk.getPosition order.traderId order.symbol)| < 2 ^ 63 ∧
    |RiskEngine.projected order (risk.getState order.traderId).netPosition| < 2 ^ 63

instance (risk : RiskEngine) (order : Order) : Decidable (ProjectionsFit risk order) :=
  inferInstanceAs (Decidable (_ ∧ _ ∧ _ ∧ _))

/-- The call carries 64-bit integers, and nothing that it adds up leaves their range. -/
def InRange (e : MatchingEngine) : EngineOp → Prop
  | .newOrder order ts _ =>
    MachineBook.OpFits (.add order ts) ∧ (∀ risk ∈ e.riskEngine, ProjectionsFit risk order) ∧
      ∀ b ∈ e.book order.symbol, MachineBook.ScanFits b order
  | .replace req ts _ => MachineBook.OpFits (.replace req ts)
  | _ => True

instance (e : MatchingEngine) : ∀ op, Decidable (InRange e op)
  | .newOrder _ _ _ => inferInstanceAs (Decidable (_ ∧ _ ∧ _))
  | .replace req ts _ => inferInstanceAs (Decidable (MachineBook.OpFits (.replace req ts)))
  | .addSymbol _ | .cancel .. | .killTrader _ | .killAll | .unkillTrader _ | .unkillAll =>
    isTrue trivial

theorem exceeds_iff {order : Order} {limit pos : Int} (hlimit : Fits limit)
    (hfits : |RiskEngine.projected order pos| < 2 ^ 63) :
    Int64.ofInt limit < stdAbs (projected order (.ofInt pos)) ↔
      limit < |RiskEngine.projected order pos| := by
  have hprojected : projected order (.ofInt pos) = .ofInt (RiskEngine.projected order pos) := by
    unfold projected RiskEngine.projected
    cases order.side
    · exact (Int64.ofInt_add _ _).symm
    · exact (Int64.ofInt_sub _ _).symm
  obtain ⟨hlo, hhi⟩ := abs_lt.mp hfits
  rw [hprojected, Int64.lt_iff_toInt_lt, toInt_stdAbs, toInt_ofInt_iff.mpr hlimit,
    toInt_ofInt_iff.mpr ⟨hlo.le, hhi⟩, if_neg hlo.ne']

-- out of the range a projection may pass that exceeds the limit by far
example : ¬ Int64.ofInt 10 < stdAbs (projected { side := .sell, quantity := 2 ^ 63 - 1 } (-1)) := by
  decide

theorem checkPositionLimit_eq {risk : RiskEngine} {order : Order} (h : ProjectionsFit risk order) :
    checkPositionLimit risk order.traderId order = risk.checkPositionLimit order.traderId order := by
  obtain ⟨hposLimit, hnetLimit, hpos, hnet⟩ := h
  rw [RiskEngine.getPosition_eq] at hpos
  unfold checkPositionLimit RiskEngine.checkPositionLimit
  simp only [exceeds_iff hposLimit hpos, exceeds_iff hnetLimit hnet]

theorem checkOrder_eq {risk : RiskEngine} {order : Order} (h : ProjectionsFit risk order) :
    checkOrder risk order = risk.checkOrder order := by
  have hposition : checkPositionLimit { risk with ordersChecked := risk.ordersChecked + 1 }
      order.traderId order = RiskEngine.checkPositionLimit
        { risk with ordersChecked := risk.ordersChecked + 1 } order.traderId order :=
    checkPositionLimit_eq h
  unfold checkOrder RiskEngine.checkOrder
  dsimp only
  rw [hposition]

variable {e : MatchingEngine} {op : EngineOp}

theorem processNewOrder_eq (hbooks : e.BooksReachable) {order : Order} {ts publishedAt : Timestamp}
    (h : InRange e (.newOrder order ts publishedAt)) :
    processNewOrder e order ts publishedAt = e.processNewOrder order ts publishedAt := by
  obtain ⟨hop, hrisk, hscan⟩ := h
  have hcheck : checkRisk e.countOrder order = e.countOrder.checkRisk order := by
    unfold checkRisk MatchingEngine.checkRisk
    cases hr : e.countOrder.riskEngine with
    | none => rfl
    | some risk =>
      have hfits : ProjectionsFit risk order := hrisk risk hr
      dsimp only
      rw [checkOrder_eq hfits]
  unfold processNewOrder MatchingEngine.processNewOrder
  dsimp only
  rw [hcheck]
  cases hs : e.countOrder.symbols.lookup order.symbol with
  | none => rfl
  | some state =>
    have hb : e.book order.symbol = some state.book := MatchingEngine.book_eq_some.mpr ⟨state, hs, rfl⟩
    have hsubmit : MachineBook.submit state.book order ts = state.book.addOrder order ts :=
      MachineBook.submit_of_fits (hbooks.repInv hb) hop.2 (hscan _ hb) ts
    unfold submit MatchingEngine.submit
    dsimp only
    rw [hsubmit]

/-- **A call in the range** does what it does on exact integers. -/
theorem perform_eq (hbooks : e.BooksReachable) (h : InRange e op) :
    perform e op = e.perform op ∧ statusOf e op = (e.reportOf op).map ExecutionReport.status := by
  cases op with
  | newOrder order ts publishedAt =>
    have heq := processNewOrder_eq hbooks h
    unfold perform statusOf MatchingEngine.perform MatchingEngine.reportOf
    dsimp only
    rw [heq]
    exact ⟨rfl, rfl⟩
  | _ => exact ⟨rfl, rfl⟩

/-! ## Runs in the range -/

theorem agree_step {ops : List EngineOp} (hbooks : e.BooksReachable) (h : Run.Along step InRange e ops) :
    Run.Along step (fun e op => perform e op = e.perform op) e ops := by
  refine h.imp (I := MatchingEngine.BooksReachable) (fun e op hbooks hrange => ?_) hbooks
  have hagree := (perform_eq hbooks hrange).1
  have hstep : step e op = e.step op := congrArg Prod.fst hagree
  rw [hstep]
  exact ⟨MatchingEngine.BooksReachable.step hbooks op, hagree⟩

/-- **What holds along a run on exact integers** holds along one in the range. -/
theorem along_step_iff {ops : List EngineOp} (hbooks : e.BooksReachable)
    (h : Run.Along step InRange e ops) {C D : MatchingEngine → EngineOp → Prop}
    (hiff : ∀ e op, perform e op = e.perform op → (C e op ↔ D e op)) :
    Run.Along step C e ops ↔ Run.Along MatchingEngine.step D e ops :=
  ((agree_step hbooks h).agree (fun _ _ hagree => congrArg Prod.fst hagree) hiff).1

/-! ## Sessions in the range -/

/-- The call of a session is in the range. -/
def CallInRange (e : MatchingEngine) (call : SessionCall) : Prop :=
  InRange (e.withRisk call.risk) call.op

instance (e : MatchingEngine) (call : SessionCall) : Decidable (CallInRange e call) :=
  inferInstanceAs (Decidable (InRange _ _))

/-- The calls do the same here and on exact integers. -/
def Agree (e : MatchingEngine) (call : SessionCall) : Prop :=
  perform (e.withRisk call.risk) call.op = (e.withRisk call.risk).perform call.op ∧
    statusOf (e.withRisk call.risk) call.op =
      ((e.withRisk call.risk).reportOf call.op).map ExecutionReport.status

theorem Agree.stepCall {call : SessionCall} (h : Agree e call) : stepCall e call = e.stepCall call :=
  congrArg Prod.fst h.1

theorem agree_along {calls : List SessionCall} (h : Run.Along stepCall CallInRange {} calls) :
    Run.Along stepCall Agree {} calls := by
  apply h.imp (I := MatchingEngine.BooksReachable)
  · intro e call hbooks hrange
    have hagree : Agree e call := perform_eq (e := e.withRisk call.risk) hbooks hrange
    rw [hagree.stepCall]
    exact ⟨MatchingEngine.BooksReachable.step (e := e.withRisk call.risk) hbooks call.op, hagree⟩
  · exact fun _ _ h => absurd h nofun

/-- **What holds along a session on exact integers** holds along one in the range, too. -/
theorem along_iff {calls : List SessionCall} (h : Run.Along stepCall CallInRange {} calls)
    {C D : MatchingEngine → SessionCall → Prop} (hiff : ∀ e call, Agree e call → (C e call ↔ D e call)) :
    Run.Along stepCall C {} calls ↔ Run.Along MatchingEngine.stepCall D {} calls :=
  ((agree_along h).agree (fun _ _ => Agree.stepCall) hiff).1

theorem along_condition_iff {calls : List SessionCall} (h : Run.Along stepCall CallInRange {} calls)
    (C : MatchingEngine → SessionCall → Prop) :
    Run.Along stepCall C {} calls ↔ Run.Along MatchingEngine.stepCall C {} calls :=
  along_iff h fun _ _ _ => Iff.rfl

theorem along_state_iff {calls : List SessionCall} (h : Run.Along stepCall CallInRange {} calls)
    (P : MatchingEngine → Prop) :
    Run.Along stepCall (fun e call => P (stepCall e call)) {} calls ↔
      Run.Along MatchingEngine.stepCall (fun e call => P (e.stepCall call)) {} calls := by
  apply along_iff h
  intro e call hagree
  rw [hagree.stepCall]

theorem session_eq {calls : List SessionCall} (h : Run.Along stepCall CallInRange {} calls) :
    session calls = MatchingEngine.session calls :=
  ((agree_along h).agree (C := Agree) (fun _ _ => Agree.stepCall) fun _ _ _ => Iff.rfl).2

end MachineEngine

end HftSdk
