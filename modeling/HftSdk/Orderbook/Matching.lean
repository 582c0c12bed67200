import HftSdk.Orderbook.L3OrderBook
import HftSdk.Lib.Sweep

/-!
# The matching loops are a greedy sweep

Both loops of `match_against` walk one list: the resting orders of the side in priority order, cut
at the first level beyond the incoming order's limit. They fill from its front (`Sweep`), and the
rest of the book changes only through the fills made (`BookCore.settle`). `matchAgainst_spec` is the
one fact about the loops that the rest of the development uses.
-/

namespace HftSdk

open Sweep SortedMap

/-- The order without its cached queue position, which is bookkeeping of the queue. -/
def L3Order.unposed (o : L3Order) : L3Order := { o with queuePos := 0 }

/-- A resting order where it stands: its level's price, its list node and the order itself. -/
structure Quote where
  price : Int
  addr : Nat
  order : L3Order
deriving DecidableEq

namespace Quote

def of (x : Int × ListNode L3Order) : Quote := ⟨x.1, x.2.addr, x.2.val.unposed⟩

def openQty (q : Quote) : Int := q.order.openQty

/-- The quote after a fill. -/
def fill (q : Quote) (matchQty : Int) : Quote := { q with order := q.order.fill matchQty }

end Quote

/-- The quotes of a side's levels in priority order. -/
def quotes (levels : List (Int × OrderQueue)) : List Quote := (flatList levels).map Quote.of

theorem quotes_cons (p : Int) (queue : OrderQueue) (levels : List (Int × OrderQueue)) :
    quotes ((p, queue) :: levels) = (queue.map fun n => Quote.of (p, n)) ++ quotes levels := by
  simp [quotes, Function.comp_def]

/-! ## One fill -/

theorem L3Order.reduce_openQty (o : L3Order) (m : Int) : (o.reduce m).openQty = o.openQty - m := by
  unfold reduce openQty
  split_ifs <;> dsimp only <;> omega

theorem L3Order.replenish_openQty (o : L3Order) : o.replenish.openQty = o.openQty := by
  unfold replenish openQty
  split_ifs
  · dsimp only
    omega
  · rfl

theorem L3Order.fill_openQty (o : L3Order) (m : Int) : (o.fill m).openQty = o.openQty - m := by
  rw [fill, replenish_openQty, reduce_openQty]

theorem Quote.fill_openQty (q : Quote) (m : Int) : (q.fill m).openQty = q.openQty - m :=
  L3Order.fill_openQty q.order m

theorem L3Order.fill_frame (o : L3Order) (m : Int) :
    o.fill m =
      { o with
        visibleQty := (o.fill m).visibleQty
        hiddenQty := (o.fill m).hiddenQty
        filledQty := o.filledQty + m } := by
  unfold fill replenish reduce
  split_ifs <;> rfl

@[simp] theorem L3Order.fill_id (o : L3Order) (m : Int) : (o.fill m).id = o.id := by
  rw [fill_frame]

@[simp] theorem L3Order.fill_side (o : L3Order) (m : Int) : (o.fill m).side = o.side := by
  rw [fill_frame]

@[simp] theorem L3Order.fill_price (o : L3Order) (m : Int) : (o.fill m).price = o.price := by
  rw [fill_frame]

@[simp] theorem L3Order.fill_filledQty (o : L3Order) (m : Int) :
    (o.fill m).filledQty = o.filledQty + m := by
  rw [fill_frame]

theorem L3Order.unposed_fill (o : L3Order) (m : Int) : o.unposed.fill m = (o.fill m).unposed := by
  unfold fill replenish reduce unposed
  split_ifs <;> rfl

theorem L3Order.fill_nonneg {o : L3Order} {m : Int} (hh : 0 ≤ o.hiddenQty) (hm : m ≤ o.openQty) :
    0 ≤ (o.fill m).visibleQty ∧ 0 ≤ (o.fill m).hiddenQty := by
  unfold openQty at hm
  unfold fill replenish reduce
  split_ifs <;> dsimp only at * <;> omega

/-! ## The rest of the book -/

namespace BookCore

/-- The book after one fill. -/
def settleOne (c : BookCore) (q : Quote) (m : Int) : BookCore :=
  if (q.fill m).openQty = 0 then (c.recordTrade q.price m).dropFilled q.order
  else c.recordTrade q.price m

/-- The book after a list of fills. -/
def settle (c : BookCore) (fs : List (Quote × Int)) : BookCore :=
  fs.foldl (fun c x => c.settleOne x.1 x.2) c

/-- The trades of a list of fills. -/
def fillTrades (c : BookCore) (incoming : Order) (ts : Timestamp) : List (Quote × Int) → List Trade
  | [] => []
  | (q, m) :: fs =>
    c.tradeWith incoming q.price q.order m ts :: (c.settleOne q m).fillTrades incoming ts fs

@[simp] theorem settle_cons (c : BookCore) (x : Quote × Int) (fs : List (Quote × Int)) :
    c.settle (x :: fs) = (c.settleOne x.1 x.2).settle fs := rfl

theorem settle_append (c : BookCore) (fs fs' : List (Quote × Int)) :
    c.settle (fs ++ fs') = (c.settle fs).settle fs' := List.foldl_append

theorem fillTrades_append (c : BookCore) (incoming : Order) (ts : Timestamp)
    (fs fs' : List (Quote × Int)) :
    c.fillTrades incoming ts (fs ++ fs') =
      c.fillTrades incoming ts fs ++ (c.settle fs).fillTrades incoming ts fs' := by
  induction fs generalizing c with
  | nil => rfl
  | cons x fs ih => simp only [List.cons_append, fillTrades, settle_cons, ih]

theorem map_fillTrades {β : Type} {g : Trade → β} {k : Quote × Int → β} {o : Order} {ts : Timestamp}
    (hg : ∀ (c : BookCore) (x : Quote × Int), g (c.tradeWith o x.1.price x.1.order x.2 ts) = k x)
    (c : BookCore) (fs : List (Quote × Int)) : (c.fillTrades o ts fs).map g = fs.map k := by
  induction fs generalizing c with
  | nil => rfl
  | cons x fs ih => rw [fillTrades, List.map_cons, List.map_cons, hg c x, ih]

theorem mem_fillTrades {c : BookCore} {o : Order} {ts : Timestamp} {fs : List (Quote × Int)}
    {t : Trade} (ht : t ∈ c.fillTrades o ts fs) :
    t.incomingId = o.id ∧ t.incomingTrader = o.traderId ∧ ∃ x ∈ fs, t.price = x.1.price := by
  have hmem := List.mem_map_of_mem (f := fun t => (t.incomingId, t.incomingTrader, t.price)) ht
  rw [map_fillTrades (k := fun x => (o.id, o.traderId, x.1.price)) fun _ _ => rfl] at hmem
  obtain ⟨x, hx, heq⟩ := List.mem_map.mp hmem
  simp only [Prod.mk.injEq] at heq
  exact ⟨heq.1.symm, heq.2.1.symm, x, hx, heq.2.2.symm⟩

theorem fillTrades_qty (c : BookCore) (o : Order) (ts : Timestamp) (fs : List (Quote × Int)) :
    ((c.fillTrades o ts fs).map Trade.qty).sum = taken fs :=
  congrArg List.sum (map_fillTrades (fun _ _ => rfl) c fs)

end BookCore

/-! ## The loops -/

/-- The quotes an incoming order may trade with, in priority order. -/
def within (incoming : Order) (levels : List (Int × OrderQueue)) : List Quote :=
  quotes (levels.takeWhile fun e => !beyondLimit incoming e.1)

/-- The quotes beyond its limit. -/
def beyond (incoming : Order) (levels : List (Int × OrderQueue)) : List Quote :=
  quotes (levels.dropWhile fun e => !beyondLimit incoming e.1)

theorem within_append_beyond (incoming : Order) (levels : List (Int × OrderQueue)) :
    within incoming levels ++ beyond incoming levels = quotes levels := by
  rw [within, beyond, quotes, quotes, ← List.map_append, ← flatList_append,
    List.takeWhile_append_dropWhile, quotes]

theorem within_subset (incoming : Order) (levels : List (Int × OrderQueue)) :
    within incoming levels ⊆ quotes levels := by
  rw [← within_append_beyond incoming]
  exact List.subset_append_left _ _

/-- A loop over quotes: the fills change the rest of the book and are reported as trades. -/
abbrev IsQuoteSweep (incoming : Order) (ts : Timestamp) :=
  IsSweep Quote.openQty Quote.fill BookCore.settle fun c => c.fillTrades incoming ts

theorem fillByFill (incoming : Order) (ts : Timestamp) :
    FillByFill BookCore.settle fun c => c.fillTrades incoming ts where
  settle_nil _ := rfl
  settle_append c := c.settle_append
  emit_nil _ := rfl
  emit_append c := c.fillTrades_append incoming ts

theorem matchQueue_of_nonpos (incoming : Order) (ts : Timestamp) (p : Int) (queue : OrderQueue)
    (c : BookCore) {demand : Int} (h : demand ≤ 0) :
    matchQueue incoming ts p queue c demand = ⟨queue, c, demand, []⟩ := by
  cases queue with
  | nil => rfl
  | cons n queue => rw [matchQueue, if_neg (by omega)]

theorem matchLevels_of_nonpos (incoming : Order) (ts : Timestamp) (levels : List (Int × OrderQueue))
    (c : BookCore) {demand : Int} (h : demand ≤ 0) :
    matchLevels incoming ts levels c demand = ⟨levels, c, demand, []⟩ := by
  cases levels with
  | nil => rfl
  | cons e levels => rw [matchLevels, if_neg (by omega)]

theorem matchQueue_cons (incoming : Order) (ts : Timestamp) (p : Int) (n : ListNode L3Order)
    (queue : OrderQueue) (c : BookCore) {demand : Int} (h : 0 < demand) :
    let m := min demand n.val.openQty
    let r := matchQueue incoming ts p queue (c.settleOne (.of (p, n)) m) (demand - m)
    matchQueue incoming ts p (n :: queue) c demand =
      { left := if (n.val.fill m).openQty = 0 then r.left else ⟨n.addr, n.val.fill m⟩ :: r.left
        core := r.core
        remaining := r.remaining
        trades := c.tradeWith incoming p n.val m ts :: r.trades } := by
  have hfill : ∀ m, ((Quote.of (p, n)).fill m).openQty = (n.val.fill m).openQty := by
    intro m
    rw [Quote.fill_openQty, L3Order.fill_openQty]
    rfl
  simp only [matchQueue, if_pos h, BookCore.settleOne, hfill, BookCore.dropFilled,
    L3Order.fill_side, L3Order.fill_id]
  split_ifs <;> rfl

theorem matchQueue_isSweep (incoming : Order) (ts : Timestamp) (p : Int) (queue : OrderQueue)
    (c : BookCore) (demand : Int) :
    let r := matchQueue incoming ts p queue c demand
    IsQuoteSweep incoming ts (queue.map fun n => .of (p, n)) [] c demand
      (r.left.map fun n => .of (p, n)) r.core r.remaining r.trades := by
  have hfills := fillByFill incoming ts
  dsimp only
  induction queue generalizing c demand with
  | nil => exact hfills.sweep_nil _ _ [] c demand
  | cons n queue ih =>
    by_cases h : 0 < demand
    · have hturn := hfills.sweep_cons _ _ h (a := .of (p, n))
        (ih (c.settleOne (.of (p, n)) (min demand n.val.openQty)) (demand - min demand n.val.openQty))
      have hof : (Quote.of (p, n)).fill (min demand n.val.openQty) =
          .of (p, ⟨n.addr, n.val.fill (min demand n.val.openQty)⟩) :=
        congrArg (Quote.mk p n.addr) (L3Order.unposed_fill n.val _)
      have hq : (Quote.of (p, n)).openQty = n.val.openQty := rfl
      rw [hq, hof] at hturn
      rw [matchQueue_cons incoming ts p n queue c h]
      dsimp only
      rw [apply_ite (List.map fun n => Quote.of (p, n))]
      exact hturn
    · have hnone := hfills.sweep_of_nonpos Quote.openQty Quote.fill
        ((n :: queue).map fun n => .of (p, n)) [] c (not_lt.mp h)
      rw [List.append_nil] at hnone
      rw [matchQueue_of_nonpos _ _ _ _ _ (not_lt.mp h)]
      exact hnone

theorem matchLevels_isSweep (incoming : Order) (ts : Timestamp) (levels : List (Int × OrderQueue))
    (c : BookCore) (demand : Int) :
    let r := matchLevels incoming ts levels c demand
    IsQuoteSweep incoming ts (within incoming levels) (beyond incoming levels) c demand
      (quotes r.left) r.core r.remaining r.trades := by
  have hfills := fillByFill incoming ts
  dsimp only
  induction levels generalizing c demand with
  | nil => exact hfills.sweep_nil _ _ [] c demand
  | cons e levels ih =>
    obtain ⟨p, queue⟩ := e
    by_cases h : 0 < demand
    · by_cases hp : beyondLimit incoming p = true
      · -- the walk ends at a level beyond the limit
        have hw : within incoming ((p, queue) :: levels) = [] := by simp [within, hp, quotes]
        have hb : beyond incoming ((p, queue) :: levels) = quotes ((p, queue) :: levels) := by
          simp [beyond, hp]
        rw [matchLevels, if_pos h, if_pos hp, hw, hb]
        exact hfills.sweep_nil _ _ _ c demand
      · have hw : within incoming ((p, queue) :: levels) =
            (queue.map fun n => .of (p, n)) ++ within incoming levels := by
          simp [within, hp, quotes_cons]
        have hb : beyond incoming ((p, queue) :: levels) = beyond incoming levels := by
          simp [beyond, hp]
        have hboth := hfills.sweep_append _ _ (matchQueue_isSweep incoming ts p queue c demand)
          (ih _ _)
        rw [matchLevels, if_pos h, if_neg hp, hw, hb]
        dsimp only
        generalize matchQueue incoming ts p queue c demand = q at hboth
        split_ifs with hempty
        · rw [List.isEmpty_iff.mp hempty, List.map_nil, List.nil_append] at hboth
          exact hboth
        · rw [quotes_cons]
          exact hboth
    · have hnone := hfills.sweep_of_nonpos Quote.openQty Quote.fill
        (within incoming ((p, queue) :: levels)) (beyond incoming ((p, queue) :: levels)) c (not_lt.mp h)
      rw [within_append_beyond] at hnone
      rw [matchLevels_of_nonpos _ _ _ _ (not_lt.mp h)]
      exact hnone

theorem matchQueue_exhausted {incoming : Order} {ts : Timestamp} {p : Int} {queue : OrderQueue}
    {c : BookCore} {demand : Int} (hrem : 0 < (matchQueue incoming ts p queue c demand).remaining) :
    (matchQueue incoming ts p queue c demand).left = [] := by
  induction queue generalizing c demand with
  | nil => rfl
  | cons n queue ih =>
    unfold matchQueue at hrem ⊢
    by_cases hd : 0 < demand
    · rw [if_pos hd] at hrem ⊢
      dsimp only at hrem ⊢
      rw [L3Order.fill_openQty] at hrem ⊢
      by_cases hfull : n.val.openQty - min demand n.val.openQty = 0
      · rw [if_pos hfull] at hrem ⊢
        exact ih hrem
      · have hmet : demand - min demand n.val.openQty ≤ 0 := by omega
        rw [if_neg hfull, matchQueue_of_nonpos _ _ _ _ _ hmet] at hrem
        exact absurd hrem (not_lt.mpr hmet)
    · rw [if_neg hd] at hrem
      exact absurd hrem hd

theorem matchLevels_nonempty (incoming : Order) (ts : Timestamp) {levels : List (Int × OrderQueue)}
    (hne : ∀ e ∈ levels, e.2 ≠ []) (c : BookCore) (demand : Int) :
    ∀ e ∈ (matchLevels incoming ts levels c demand).left, e.2 ≠ [] := by
  induction levels generalizing c demand with
  | nil => exact hne
  | cons e levels ih =>
    obtain ⟨p, queue⟩ := e
    rw [matchLevels]
    split_ifs
    · exact hne
    · have ih := ih (fun e he => hne e (List.mem_cons_of_mem _ he))
      dsimp only
      split_ifs with hempty
      · exact ih _ _
      · rintro e (_ | ⟨_, he⟩)
        · intro h
          exact hempty (List.isEmpty_iff.mpr h)
        · exact ih _ _ e he
    · exact hne

/-! ## One side of the book -/

theorem beyondLimit_mono {incoming : Order} {p q : Int} (h : incoming.side.opp.better p q)
    (hq : (!beyondLimit incoming q) = true) : (!beyondLimit incoming p) = true := by
  cases hs : incoming.side <;>
    simp only [hs, Side.opp, Side.better, beyondLimit, Bool.not_eq_true', Bool.and_eq_false_iff,
      decide_eq_false_iff_not] at h hq ⊢ <;>
    refine hq.imp_right fun hq => ?_ <;> omega

/-- The quotes of a side an order may trade with, best first: the levels not beyond its limit. -/
def tradable (incoming : Order) (l : List Quote) : List Quote :=
  l.filter fun q => !beyondLimit incoming q.price

/-- The quotes it may not trade with. -/
def untradable (incoming : Order) (l : List Quote) : List Quote :=
  l.filter fun q => beyondLimit incoming q.price

theorem tradable_quotes (incoming : Order) (levels : List (Int × OrderQueue)) :
    tradable incoming (quotes levels) =
      quotes (levels.filter fun e => !beyondLimit incoming e.1) := by
  induction levels with
  | nil => rfl
  | cons e levels ih =>
    obtain ⟨p, queue⟩ := e
    rw [tradable] at ih
    rw [quotes_cons, tradable, List.filter_append, ih, List.filter_map, List.filter_cons]
    by_cases hp : beyondLimit incoming p = true
    · simp [Quote.of, Function.comp_def, hp]
    · simp [Quote.of, Function.comp_def, hp, quotes_cons]

theorem within_eq {incoming : Order} {s : Side} (hs : incoming.side.opp = s) (m : PriceLevels s) :
    within incoming m.entries = tradable incoming (quotes m.entries) ∧
      beyond incoming m.entries = untradable incoming (quotes m.entries) := by
  subst hs
  obtain ⟨ht, hd⟩ := m.flat_takeWhile (fun p => !beyondLimit incoming p)
    fun p q h hq => beyondLimit_mono h hq
  simp only [Bool.not_not] at hd
  simp only [within, beyond, tradable, untradable, quotes, List.filter_map]
  exact ⟨congrArg (List.map Quote.of) ht, congrArg (List.map Quote.of) hd⟩

/-- **`match_against` is a greedy sweep** of the quotes of the side that the order may trade with. -/
theorem matchAgainst_spec {incoming : Order} {s : Side} (hs : incoming.side.opp = s)
    (m : PriceLevels s) (c : BookCore) (demand : Int) (ts : Timestamp) :
    let r := matchAgainst m incoming c demand ts
    IsQuoteSweep incoming ts (tradable incoming (quotes m.entries))
      (untradable incoming (quotes m.entries)) c demand (quotes r.left.entries) r.core r.remaining
      r.trades := by
  have hsweep := matchLevels_isSweep incoming ts m.entries c demand
  obtain ⟨hw, hb⟩ := within_eq hs m
  rw [hw, hb] at hsweep
  exact hsweep

theorem total_within_cons (order : Order) (p : Int) (queue : OrderQueue)
    (levels : List (Int × OrderQueue)) :
    total Quote.openQty (within order ((p, queue) :: levels)) =
      if beyondLimit order p then 0
      else (queue.map fun n => n.val.openQty).sum + total Quote.openQty (within order levels) := by
  by_cases hp : beyondLimit order p = true
  · rw [if_pos hp, show within order ((p, queue) :: levels) = [] by simp [within, hp, quotes],
      total_nil]
  · have hw : within order ((p, queue) :: levels) =
        (queue.map fun n => .of (p, n)) ++ within order levels := by simp [within, hp, quotes_cons]
    have hq : total Quote.openQty (queue.map fun n => .of (p, n)) =
        (queue.map fun n => n.val.openQty).sum := by
      simp only [total, List.map_map]
      rfl
    rw [if_neg hp, hw, total_append, hq]

theorem quotes_tail_pos {e : Int × OrderQueue} {levels : List (Int × OrderQueue)}
    (hpos : ∀ q ∈ quotes (e :: levels), 0 < q.openQty) : ∀ q ∈ quotes levels, 0 < q.openQty := by
  intro q hq
  obtain ⟨p, queue⟩ := e
  apply hpos
  rw [quotes_cons]
  exact List.mem_append_right _ hq

theorem total_within_nonneg (order : Order) {levels : List (Int × OrderQueue)}
    (hpos : ∀ q ∈ quotes levels, 0 < q.openQty) : 0 ≤ total Quote.openQty (within order levels) :=
  total_nonneg _ fun q hq => hpos q (within_subset order levels hq)

/-- **The fill-or-kill scan** finds the demanded quantity exactly when the quotes the order may
trade with hold it. -/
theorem le_fokAvailable {order : Order} {levels : List (Int × OrderQueue)}
    (hpos : ∀ q ∈ quotes levels, 0 < q.openQty) (available : Int) :
    order.quantity ≤ fokAvailable order levels available ↔
      order.quantity ≤ available + total Quote.openQty (within order levels) := by
  induction levels generalizing available with
  | nil => simp [fokAvailable, within, quotes]
  | cons e levels ih =>
    obtain ⟨p, queue⟩ := e
    have htail := quotes_tail_pos hpos
    rw [fokAvailable, total_within_cons]
    by_cases hp : beyondLimit order p = true
    · rw [if_pos hp, if_pos hp, Int.add_zero]
    · rw [if_neg hp, if_neg hp]
      dsimp only
      split_ifs with h
      · -- the early exit: the rest of the side only adds to what was found
        have := total_within_nonneg order htail
        omega
      · rw [ih htail]
        omega

end HftSdk
