import HftSdk.Orderbook.History

/-!
# Price-time priority

`trail` replays the matching of a call and keeps, with every trade, the side it was made on as it
stands right after that trade: the side as it was before the call, used up from its front by what
the call has traded so far (`RepInv.trail_leftOf`). Over every run, no other order in such a snapshot
has priority over the one that traded (`run_prioritised`), entry being the call that last placed an
order.
-/

namespace HftSdk

open Sweep

/-! ## Snapshots -/

/-- `matchQueue` with the queue as it stands after each trade. -/
def queueTrail (incoming : Order) (ts : Timestamp) (levelPrice : Int) :
    OrderQueue → BookCore → Int → List (Trade × OrderQueue)
  | [], _, _ => []
  | n :: queue, c, remaining =>
    if 0 < remaining then
      let matchQty := min remaining n.val.openQty
      let trade := c.tradeWith incoming levelPrice n.val matchQty ts
      let c := c.recordTrade levelPrice matchQty
      let resting := n.val.fill matchQty
      if resting.openQty = 0 then
        (trade, queue) ::
          queueTrail incoming ts levelPrice queue (c.dropFilled resting) (remaining - matchQty)
      else
        (trade, ⟨n.addr, resting⟩ :: queue) ::
          (queueTrail incoming ts levelPrice queue c (remaining - matchQty)).map
            fun x => (x.1, ⟨n.addr, resting⟩ :: x.2)
    else []

/-- `matchLevels` with the side as it stands after each trade. -/
def levelsTrail (incoming : Order) (ts : Timestamp) :
    List (Int × OrderQueue) → BookCore → Int → List (Trade × List (Int × OrderQueue))
  | [], _, _ => []
  | (levelPrice, queue) :: levels, c, remaining =>
    if 0 < remaining then
      if beyondLimit incoming levelPrice then []
      else
        let q := matchQueue incoming ts levelPrice queue c remaining
        (queueTrail incoming ts levelPrice queue c remaining).map
            (fun x => (x.1, (levelPrice, x.2) :: levels)) ++
          (levelsTrail incoming ts levels q.core q.remaining).map
            fun x => (x.1, if q.left.isEmpty then x.2 else (levelPrice, q.left) :: x.2)
    else []

namespace L3OrderBook

/-- The trades of `addOrder`, each with the other side right after it. -/
def addTrail (b : L3OrderBook) (order : Order) (ts : Timestamp) :
    List (Trade × List (Int × OrderQueue)) :=
  let levels := (b.levels order.side.opp).entries
  if order.id ∈ b.orderIndex then []
  else if order.tif = .fok ∧ fokAvailable order levels 0 < order.quantity then []
  else levelsTrail order ts levels b.toBookCore order.quantity

/-- The trades of a call, each with the side it was made on right after it. -/
def trail (b : L3OrderBook) : BookOp → List (Trade × List (Int × OrderQueue))
  | .add order ts => b.addTrail order ts
  | .cancel _ _ => []
  | .replace req ts =>
    let cancel := b.cancelOrder req.orderId ts
    if cancel.rpt.status ≠ .canceled then []
    else cancel.book.addTrail (replacement req cancel.rpt.side ts) ts

end L3OrderBook

/-! ## The trail follows the loops -/

theorem queueTrail_of_nonpos (incoming : Order) (ts : Timestamp) (p : Int) (queue : OrderQueue)
    (c : BookCore) {remaining : Int} (h : remaining ≤ 0) :
    queueTrail incoming ts p queue c remaining = [] := by
  cases queue with
  | nil => rfl
  | cons n queue => exact if_neg (by omega)

theorem levelsTrail_of_nonpos (incoming : Order) (ts : Timestamp) (levels : List (Int × OrderQueue))
    (c : BookCore) {remaining : Int} (h : remaining ≤ 0) :
    levelsTrail incoming ts levels c remaining = [] := by
  cases levels with
  | nil => rfl
  | cons e levels => exact if_neg (by omega)

theorem levelsTrail_remaining {incoming : Order} {ts : Timestamp} {levels : List (Int × OrderQueue)}
    {c : BookCore} {remaining : Int} (h : levelsTrail incoming ts levels c remaining ≠ []) :
    0 < remaining := by
  by_contra hle
  exact h (levelsTrail_of_nonpos _ _ _ _ (by omega))

theorem queueTrail_trades (incoming : Order) (ts : Timestamp) (p : Int) (queue : OrderQueue)
    (c : BookCore) (remaining : Int) :
    (queueTrail incoming ts p queue c remaining).map Prod.fst =
      (matchQueue incoming ts p queue c remaining).trades := by
  induction queue generalizing c remaining with
  | nil => rfl
  | cons n queue ih =>
    rw [queueTrail, matchQueue]
    dsimp only
    split_ifs
    · simp [ih]
    · simp [ih, Function.comp_def]
    · rfl

theorem levelsTrail_trades (incoming : Order) (ts : Timestamp) (levels : List (Int × OrderQueue))
    (c : BookCore) (remaining : Int) :
    (levelsTrail incoming ts levels c remaining).map Prod.fst =
      (matchLevels incoming ts levels c remaining).trades := by
  induction levels generalizing c remaining with
  | nil => rfl
  | cons e levels ih =>
    obtain ⟨p, queue⟩ := e
    rw [levelsTrail, matchLevels]
    split_ifs
    · rfl
    · simp [← ih, ← queueTrail_trades, Function.comp_def]
    · rfl

/-- A snapshot of a walk over the quotes `l`: the trade was made with some quote `a` of it, and the
other quotes of the snapshot come after `a`. -/
def IsSnapshot (incoming : Order) (l : List Quote) (t : Trade) (snapshot : List Quote) : Prop :=
  ∃ pre a post, l = pre ++ a :: post ∧ t.aggressorSide = incoming.side ∧ t.price = a.price ∧
    t.restingId = a.order.id ∧ ∀ q ∈ snapshot, q.order.id = a.order.id ∨ q ∈ post

theorem queueTrail_isSnapshot {incoming : Order} {ts : Timestamp} {p : Int} {queue : OrderQueue}
    (hpos : ∀ n ∈ queue, 0 < n.val.openQty) {c : BookCore} {remaining : Int}
    {x : Trade × OrderQueue} (hx : x ∈ queueTrail incoming ts p queue c remaining) :
    IsSnapshot incoming (queue.map fun n => .of (p, n)) x.1 (x.2.map fun n => .of (p, n)) := by
  induction queue generalizing c remaining with
  | nil => exact absurd hx List.not_mem_nil
  | cons n queue ih =>
    rw [queueTrail] at hx
    rw [List.forall_mem_cons] at hpos
    dsimp only at hx
    split_ifs at hx with hrem hfull
    · rcases List.mem_cons.mp hx with rfl | hx
      · exact ⟨[], .of (p, n), _, rfl, rfl, rfl, rfl, fun q hq => Or.inr hq⟩
      · obtain ⟨pre, a, post, hl, h⟩ := ih hpos.2 hx
        exact ⟨.of (p, n) :: pre, a, post, by rw [List.map_cons, hl]; rfl, h⟩
    · rcases List.mem_cons.mp hx with rfl | hx
      · refine ⟨[], .of (p, n), _, rfl, rfl, rfl, rfl, fun q hq => ?_⟩
        rcases List.mem_cons.mp hq with rfl | hq
        · exact Or.inl (L3Order.fill_id _ _)
        · exact Or.inr hq
      · -- a partial fill ends the walk
        obtain ⟨y, hy, -⟩ := List.mem_map.mp hx
        rw [L3Order.fill_openQty] at hfull
        rw [queueTrail_of_nonpos _ _ _ _ _ (by omega)] at hy
        exact absurd hy List.not_mem_nil
    · exact absurd hx List.not_mem_nil

theorem IsSnapshot.append {incoming : Order} {l : List Quote} {t : Trade} {snapshot : List Quote}
    (h : IsSnapshot incoming l t snapshot) (tail : List Quote) :
    IsSnapshot incoming (l ++ tail) t (snapshot ++ tail) := by
  obtain ⟨pre, a, post, rfl, hside, hprice, hid, hsnap⟩ := h
  refine ⟨pre, a, post ++ tail, by simp, hside, hprice, hid, fun q hq => ?_⟩
  rcases List.mem_append.mp hq with hq | hq
  · exact (hsnap q hq).imp_right (List.mem_append_left _)
  · exact Or.inr (List.mem_append_right _ hq)

theorem IsSnapshot.prepend {incoming : Order} {l : List Quote} {t : Trade} {snapshot : List Quote}
    (h : IsSnapshot incoming l t snapshot) (front : List Quote) :
    IsSnapshot incoming (front ++ l) t snapshot := by
  obtain ⟨pre, a, post, rfl, h⟩ := h
  exact ⟨front ++ pre, a, post, by simp, h⟩

theorem levelsTrail_isSnapshot {incoming : Order} {ts : Timestamp} {levels : List (Int × OrderQueue)}
    (hpos : ∀ q ∈ quotes levels, 0 < q.openQty) {c : BookCore} {remaining : Int}
    {x : Trade × List (Int × OrderQueue)} (hx : x ∈ levelsTrail incoming ts levels c remaining) :
    IsSnapshot incoming (quotes levels) x.1 (quotes x.2) := by
  induction levels generalizing c remaining x with
  | nil => exact absurd hx List.not_mem_nil
  | cons e levels ih =>
    obtain ⟨p, queue⟩ := e
    rw [quotes_cons] at hpos ⊢
    rw [List.forall_mem_append] at hpos
    have hqueue : ∀ n ∈ queue, 0 < n.val.openQty := fun n hn =>
      hpos.1 (.of (p, n)) (List.mem_map_of_mem hn)
    rw [levelsTrail] at hx
    split_ifs at hx with hrem hlimit
    · exact absurd hx List.not_mem_nil
    · rcases List.mem_append.mp hx with hx | hx
      · obtain ⟨y, hy, rfl⟩ := List.mem_map.mp hx
        rw [quotes_cons]
        exact (queueTrail_isSnapshot hqueue hy).append _
      · obtain ⟨y, hy, rfl⟩ := List.mem_map.mp hx
        have hsnap := ih hpos.2 hy
        have hempty := matchQueue_exhausted (levelsTrail_remaining (List.ne_nil_of_mem hy))
        rw [hempty]
        exact hsnap.prepend _
    · exact absurd hx List.not_mem_nil

/-! ## The snapshots are the states of the loops -/

theorem queueTrail_exhausted {incoming : Order} {ts : Timestamp} {p : Int} {queue : OrderQueue}
    (hpos : ∀ q ∈ queue.map fun n => Quote.of (p, n), 0 < q.openQty) {c : BookCore} {remaining : Int}
    (hrem : 0 < (matchQueue incoming ts p queue c remaining).remaining) :
    ((queueTrail incoming ts p queue c remaining).map fun y => y.1.qty).sum =
      total Quote.openQty (queue.map fun n => .of (p, n)) := by
  obtain ⟨-, hr, ht, -⟩ := matchQueue_isSweep incoming ts p queue c remaining
  have htrades := congrArg (List.map Trade.qty) (queueTrail_trades incoming ts p queue c remaining)
  rw [List.map_map, ht] at htrades
  have htaken := BookCore.fillTrades_qty c incoming ts
    (fills Quote.openQty remaining (queue.map fun n => .of (p, n)))
  rw [← htrades] at htaken
  apply htaken.trans
  have hnonneg := total_nonneg _ hpos
  by_cases h : 0 ≤ remaining
  · have := taken_fills Quote.fill_openQty hpos h
    omega
  · rw [fills_of_nonpos _ (by omega), taken_nil] at hr
    omega

/-- What has been traded when a trail has come to `x`. -/
def tradedAt {β : Type} (pre : List (Trade × β)) (x : Trade × β) : Int :=
  (pre.map fun y => y.1.qty).sum + x.1.qty

theorem tradedAt_map {β γ : Type} {f : Trade × β → Trade × γ} (hf : ∀ y, (f y).1 = y.1)
    (pre : List (Trade × β)) (x : Trade × β) : tradedAt (pre.map f) (f x) = tradedAt pre x := by
  simp [tradedAt, Function.comp_def, hf]

theorem tradedAt_append {β : Type} (pre pre' : List (Trade × β)) (x : Trade × β) :
    tradedAt (pre ++ pre') x = (pre.map fun y => y.1.qty).sum + tradedAt pre' x := by
  simp [tradedAt, Int.add_assoc]

/-- `snapshot` is what a sweep of `l` leaves when it has taken `traded`, a part of what `l` holds. -/
def LeftOf (l : List Quote) (traded : Int) (snapshot : List Quote) : Prop :=
  0 < traded ∧ traded ≤ total Quote.openQty l ∧ snapshot = residue Quote.openQty Quote.fill traded l

theorem LeftOf.append {l : List Quote} {traded : Int} {snapshot : List Quote}
    (h : LeftOf l traded snapshot) (hl : ∀ q ∈ l, 0 < q.openQty) {tail : List Quote}
    (htail : ∀ q ∈ tail, 0 < q.openQty) : LeftOf (l ++ tail) traded (snapshot ++ tail) := by
  obtain ⟨hpos, hle, rfl⟩ := h
  have hrest := total_nonneg _ htail
  refine ⟨hpos, by rw [total_append]; omega, ?_⟩
  rw [residue_append, taken_fills Quote.fill_openQty hl hpos.le, min_eq_left hle, Int.sub_self,
    residue_of_nonpos _ _ le_rfl]

theorem LeftOf.prepend {l : List Quote} {traded : Int} {snapshot : List Quote}
    (h : LeftOf l traded snapshot) (front : List Quote) (hfront : ∀ q ∈ front, 0 < q.openQty) :
    LeftOf (front ++ l) (total Quote.openQty front + traded) snapshot := by
  obtain ⟨hpos, hle, rfl⟩ := h
  have hnonneg := total_nonneg _ hfront
  have htaken := taken_fills Quote.fill_openQty hfront
    (show 0 ≤ total Quote.openQty front + traded by omega)
  rw [min_eq_right (by omega)] at htaken
  refine ⟨by omega, by rw [total_append]; omega, ?_⟩
  rw [residue_append, htaken, residue_eq_nil Quote.fill_openQty hfront (by omega), List.nil_append]
  congr 1
  omega

theorem queueTrail_leftOf {incoming : Order} {ts : Timestamp} {p : Int} {queue : OrderQueue}
    (hpos : ∀ n ∈ queue, 0 < n.val.openQty) {c : BookCore} {remaining : Int}
    {pre post : List (Trade × OrderQueue)} {x : Trade × OrderQueue}
    (hx : queueTrail incoming ts p queue c remaining = pre ++ x :: post) :
    LeftOf (queue.map fun n => .of (p, n)) (tradedAt pre x) (x.2.map fun n => .of (p, n)) := by
  induction queue generalizing c remaining pre with
  | nil => exact absurd hx.symm (by simp [queueTrail])
  | cons n queue ih =>
    rw [List.forall_mem_cons] at hpos
    have hq : (Quote.of (p, n)).openQty = n.val.openQty := rfl
    have hqueue : ∀ q ∈ queue.map fun n => Quote.of (p, n), 0 < q.openQty := by
      intro q hq
      obtain ⟨m, hm, rfl⟩ := List.mem_map.mp hq
      exact hpos.2 m hm
    rw [queueTrail] at hx
    dsimp only at hx
    split_ifs at hx with hrem hfull
    · -- the order is used up
      rw [L3Order.fill_openQty] at hfull
      have hm : min remaining n.val.openQty = n.val.openQty := by omega
      cases pre with
      | nil =>
        obtain ⟨rfl, -⟩ := List.cons.inj hx
        have hall : tradedAt [] (c.tradeWith incoming p n.val (min remaining n.val.openQty) ts, queue) =
            n.val.openQty := by simp [tradedAt, BookCore.tradeWith, hm]
        have hrest := total_nonneg _ hqueue
        rw [hall, List.map_cons]
        refine ⟨hpos.1, by rw [total_cons, hq]; omega, ?_⟩
        rw [residue_cons_full _ _ Quote.fill_openQty (hq ▸ hpos.1) hq.le, hq, Int.sub_self,
          residue_of_nonpos _ _ le_rfl]
      | cons y pre =>
        obtain ⟨rfl, hx'⟩ := List.cons.inj hx
        have hleft := (ih hpos.2 hx').prepend [.of (p, n)] (by simpa [hq] using hpos.1)
        have htraded : tradedAt
            ((c.tradeWith incoming p n.val (min remaining n.val.openQty) ts, queue) :: pre) x =
            n.val.openQty + tradedAt pre x := by
          rw [← List.singleton_append, tradedAt_append]
          simp [BookCore.tradeWith, hm]
        rw [htraded]
        simpa [hq] using hleft
    · -- the order keeps something, which ends the walk
      rw [L3Order.fill_openQty] at hfull
      have hm : min remaining n.val.openQty = remaining := by omega
      rw [hm, Int.sub_self, queueTrail_of_nonpos _ _ _ _ _ le_rfl, List.map_nil] at hx
      cases pre with
      | nil =>
        obtain ⟨rfl, -⟩ := List.cons.inj hx
        have hpart : ∀ β (y : β), tradedAt [] (c.tradeWith incoming p n.val remaining ts, y) =
            remaining := fun β y => by simp [tradedAt, BookCore.tradeWith]
        have hrest := total_nonneg _ hqueue
        rw [hpart, List.map_cons]
        refine ⟨hrem, by rw [total_cons, hq]; omega, ?_⟩
        rw [residue_cons_part _ _ Quote.fill_openQty hrem (by omega), List.map_cons]
        exact congrArg (· :: _) (congrArg (Quote.mk p n.addr) (L3Order.unposed_fill n.val _).symm)
      | cons y pre => simp at hx
    · exact absurd hx.symm (by simp)

theorem append_eq_append_cons {β : Type} {l l' pre post : List β} {x : β}
    (h : l ++ l' = pre ++ x :: post) :
    (∃ post', l = pre ++ x :: post') ∨ ∃ pre', pre = l ++ pre' ∧ l' = pre' ++ x :: post := by
  rcases List.append_eq_append_iff.mp h with ⟨pre', hpre, hl'⟩ | ⟨c, hl, hc⟩
  · exact Or.inr ⟨pre', hpre, hl'⟩
  · cases c with
    | nil => exact Or.inr ⟨[], by simpa using hl.symm, by simpa using hc.symm⟩
    | cons y c =>
      obtain ⟨rfl, -⟩ := List.cons.inj hc
      exact Or.inl ⟨c, hl⟩

theorem split_of_map {β γ : Type} {f : Trade × β → Trade × γ} {l : List (Trade × β)}
    {pre post : List (Trade × γ)} {x : Trade × γ} (h : l.map f = pre ++ x :: post)
    (hf : ∀ y, (f y).1 = y.1) :
    ∃ pre' y post', l = pre' ++ y :: post' ∧ f y = x ∧ tradedAt pre x = tradedAt pre' y := by
  obtain ⟨pre', l', rfl, rfl, hl'⟩ := List.map_eq_append_iff.mp h
  obtain ⟨y, post', rfl, rfl, -⟩ := List.map_eq_cons_iff.mp hl'
  exact ⟨pre', y, post', rfl, rfl, tradedAt_map hf pre' y⟩

theorem levelsTrail_leftOf {incoming : Order} {ts : Timestamp} {levels : List (Int × OrderQueue)}
    (hpos : ∀ q ∈ quotes levels, 0 < q.openQty) {c : BookCore} {remaining : Int}
    {pre post : List (Trade × List (Int × OrderQueue))} {x : Trade × List (Int × OrderQueue)}
    (hx : levelsTrail incoming ts levels c remaining = pre ++ x :: post) :
    LeftOf (quotes levels) (tradedAt pre x) (quotes x.2) := by
  induction levels generalizing c remaining pre x post with
  | nil => exact absurd hx.symm (by simp [levelsTrail])
  | cons e levels ih =>
    obtain ⟨p, queue⟩ := e
    rw [quotes_cons] at hpos ⊢
    rw [List.forall_mem_append] at hpos
    have hqueue : ∀ n ∈ queue, 0 < n.val.openQty := fun n hn =>
      hpos.1 (.of (p, n)) (List.mem_map_of_mem hn)
    rw [levelsTrail] at hx
    split_ifs at hx with hrem hlimit
    · exact absurd hx.symm (by simp)
    · rcases append_eq_append_cons hx with ⟨post', hx'⟩ | ⟨pre', rfl, hx'⟩
      · obtain ⟨pre₀, y, post₀, hy, rfl, htraded⟩ := split_of_map hx' fun _ => rfl
        rw [htraded, quotes_cons]
        exact (queueTrail_leftOf hqueue hy).append hpos.1 hpos.2
      · obtain ⟨pre₀, y, post₀, hy, rfl, htraded⟩ := split_of_map hx' fun _ => rfl
        have hrem' := levelsTrail_remaining (hy ▸ List.append_ne_nil_of_right_ne_nil _ (by simp))
        have hempty := matchQueue_exhausted hrem'
        have hsum := queueTrail_exhausted hpos.1 hrem'
        rw [tradedAt_append, htraded, List.map_map, hempty]
        change LeftOf _ (((queueTrail incoming ts p queue c remaining).map fun y => y.1.qty).sum + _) _
        rw [hsum]
        exact (ih hpos.2 hy).prepend _ hpos.1
    · exact absurd hx.symm (by simp)

namespace L3OrderBook

theorem addTrail_trades (b : L3OrderBook) (o : Order) (ts : Timestamp) :
    (b.addTrail o ts).map Prod.fst = (b.addOrder o ts).trades := by
  unfold addTrail
  by_cases hid : o.id ∈ b.orderIndex
  · rw [addOrder, if_pos hid, if_pos hid]
    rfl
  · rw [(addOrder_of_not_mem hid ts).2.2, matchIncoming_eq, if_neg hid]
    dsimp only
    split_ifs
    · rfl
    · exact levelsTrail_trades _ _ _ _ _

theorem cancelOrder_trades (b : L3OrderBook) (id : OrderId) (ts : Timestamp) :
    (b.cancelOrder id ts).trades = [] := by
  unfold cancelOrder
  cases b.orderIndex.lookup id <;> rfl

theorem trail_trades (b : L3OrderBook) (op : BookOp) :
    (b.trail op).map Prod.fst = (b.step op).trades := by
  cases op with
  | add o ts => exact b.addTrail_trades o ts
  | cancel id ts => exact (b.cancelOrder_trades id ts).symm
  | replace req ts =>
    have hc := b.cancelOrder_trades req.orderId ts
    rw [step, replaceOrder, trail]
    dsimp only
    split_ifs
    · exact hc.symm
    · rw [addTrail_trades]
      unfold BookResult.trades at hc ⊢
      rw [List.filterMap_append, hc, List.nil_append]

theorem RepInv.addTrail {b : L3OrderBook} (h : b.RepInv) {o : Order} {ts : Timestamp}
    {x : Trade × List (Int × OrderQueue)} (hx : x ∈ b.addTrail o ts) :
    IsSnapshot o (b.ladder.side o.side.opp) x.1 (quotes x.2) := by
  unfold L3OrderBook.addTrail at hx
  dsimp only at hx
  split_ifs at hx
  · exact absurd hx List.not_mem_nil
  · exact absurd hx List.not_mem_nil
  · exact levelsTrail_isSnapshot (fun q hq => (h.inv.sound _ q hq).pos) hx

theorem RepInv.addTrail_leftOf {b : L3OrderBook} (h : b.RepInv) {o : Order} {ts : Timestamp}
    {pre post : List (Trade × List (Int × OrderQueue))} {x : Trade × List (Int × OrderQueue)}
    (hx : b.addTrail o ts = pre ++ x :: post) :
    LeftOf (b.ladder.side x.1.aggressorSide.opp) (tradedAt pre x) (quotes x.2) := by
  have hmem : x ∈ b.addTrail o ts := hx ▸ List.mem_append_right _ List.mem_cons_self
  obtain ⟨_, _, _, -, hside, -⟩ := h.addTrail hmem
  rw [hside]
  unfold L3OrderBook.addTrail at hx
  dsimp only at hx
  split_ifs at hx
  · exact absurd hx.symm (by simp)
  · exact absurd hx.symm (by simp)
  · exact levelsTrail_leftOf (fun q hq => (h.inv.sound _ q hq).pos) hx

/-- **The snapshots of a call**: the side before the call, used up by what the call has traded. -/
theorem RepInv.trail_leftOf {b : L3OrderBook} (h : b.RepInv) {op : BookOp}
    {pre post : List (Trade × List (Int × OrderQueue))} {x : Trade × List (Int × OrderQueue)}
    (hx : b.trail op = pre ++ x :: post) :
    LeftOf (b.ladder.side x.1.aggressorSide.opp) (tradedAt pre x) (quotes x.2) := by
  cases op with
  | add o ts => exact h.addTrail_leftOf hx
  | cancel id ts => exact absurd hx.symm (by simp [trail])
  | replace req ts =>
    rw [trail] at hx
    by_cases hid : b.ladder.Has req.orderId
    · obtain ⟨q, hq, hid⟩ := hid
      have hc := h.cancelOrder {} req.orderId ts
      have heq := h.cancelOrder_eq hq ts
      rw [hid] at heq
      have hside : (b.cancelOrder req.orderId ts).rpt.side = q.order.side := by
        rw [heq]
        rfl
      have hstatus : (b.cancelOrder req.orderId ts).rpt.status = .canceled := by
        rw [heq]
        rfl
      rw [if_neg (not_not.mpr hstatus), hside] at hx
      have hleft := hc.repInv.addTrail_leftOf hx
      obtain ⟨_, _, _, -, haggressor, -⟩ := hc.repInv.addTrail
        (hx ▸ List.mem_append_right _ List.mem_cons_self)
      -- the cancel took an order off the other side
      rw [hc.ladder, haggressor, ← hid] at hleft
      rw [haggressor]
      exact (h.inv.cancel_side_opp hq) ▸ hleft
    · rw [h.cancelOrder_of_not_has hid] at hx
      exact absurd hx.symm (by simp)

end L3OrderBook

/-! ## Priority over a run -/

namespace History

/-- On side `s` the order `id` at price `p` goes before the order `id'` at `p'`: its price is
better, or the same and it entered the book earlier. -/
def Ahead (h : History) (s : Side) (p : Int) (id : OrderId) (p' : Int) (id' : OrderId) : Prop :=
  s.better p p' ∨ p = p' ∧ (h.life id).entry < (h.life id').entry

/-- Price-time priority in a call: every trade is with a resting order of the other side, and right
after it no other order there is ahead of that one. What stands there right after it is the side
before the call, used up from its front by the trades so far. -/
structure Prioritised (h : History) (op : BookOp) : Prop where
  trades : (h.book.trail op).map Prod.fst = (h.book.step op).trades
  snapshots : ∀ pre x post, h.book.trail op = pre ++ x :: post →
    LeftOf (quotes (h.book.levels x.1.aggressorSide.opp).entries) (tradedAt pre x) (quotes x.2)
  resting : ∀ x ∈ h.book.trail op, ∃ e ∈ (h.book.levels x.1.aggressorSide.opp).entries,
    e.1 = x.1.price ∧ ∃ n ∈ e.2, n.val.id = x.1.restingId
  first : ∀ x ∈ h.book.trail op, ∀ e ∈ x.2, ∀ n ∈ e.2, n.val.id ≠ x.1.restingId →
    ¬ h.Ahead x.1.aggressorSide.opp e.1 n.val.id x.1.price x.1.restingId

end History

theorem Kept.not_ahead {L : Ladder} (hL : L.Inv) {life : OrderId → Life} {calls : Nat}
    (hk : Kept L life calls) {s : Side} {pre post : List Quote} {a q : Quote}
    (hl : L.side s = pre ++ a :: post) (hq : q ∈ post) :
    ¬ (s.better q.price a.price ∨
      q.price = a.price ∧ (life q.order.id).entry < (life a.order.id).entry) := by
  have hbefore : a.Before s q := by
    have := hL.ordered s
    rw [hl, List.pairwise_append, List.pairwise_cons] at this
    exact this.2.1.1 q hq
  have hmem : ∀ r ∈ a :: post, r ∈ L.all := fun r hr =>
    Ladder.mem_all.mpr ⟨s, hl ▸ List.mem_append_right _ hr⟩
  rintro (hbetter | ⟨hp, hentry⟩) <;> rcases hbefore with hb | ⟨hp', haddr⟩
  · exact irrefl _ (trans_of s.better hb hbetter)
  · exact irrefl _ (hp' ▸ hbetter)
  · exact irrefl _ (hp ▸ hb)
  · exact lt_asymm hentry
      (hk.arrival a (hmem a (by simp)) q (hmem q (List.mem_cons_of_mem a hq)) haddr)

namespace History

theorem snapshot_first {b : L3OrderBook} (hb : b.RepInv) {h : History} {calls : Nat}
    (hk : Kept b.ladder h.life calls) {o : Order} {ts : Timestamp}
    {x : Trade × List (Int × OrderQueue)} (hx : x ∈ b.addTrail o ts) :
    (∃ q ∈ b.ladder.side x.1.aggressorSide.opp, q.price = x.1.price ∧ q.order.id = x.1.restingId) ∧
      ∀ e ∈ x.2, ∀ n ∈ e.2, n.val.id ≠ x.1.restingId →
        ¬ h.Ahead x.1.aggressorSide.opp e.1 n.val.id x.1.price x.1.restingId := by
  obtain ⟨pre, a, post, hl, hside, hprice, hid, hsnap⟩ := hb.addTrail hx
  rw [hside, hprice, hid]
  refine ⟨⟨a, hl ▸ by simp, rfl, rfl⟩, fun e he n hn hne => ?_⟩
  rcases hsnap (.of (e.1, n)) (mem_quotes.mpr ⟨e, he, n, hn, rfl⟩) with h | h
  · exact absurd h hne
  · exact hk.not_ahead hb.inv hl h

theorem Inv.prioritised {h : History} (hi : h.Inv) (op : BookOp) : h.Prioritised op := by
  have hresting : ∀ {s : Side} {p : Int} {id : OrderId},
      (∃ q ∈ h.book.ladder.side s, q.price = p ∧ q.order.id = id) →
      ∃ e ∈ (h.book.levels s).entries, e.1 = p ∧ ∃ n ∈ e.2, n.val.id = id := by
    rintro s _ _ ⟨q, hq, rfl, rfl⟩
    obtain ⟨e, he, n, hn, rfl⟩ := mem_quotes.mp hq
    exact ⟨e, he, rfl, n, hn, rfl⟩
  suffices hall : ∀ x ∈ h.book.trail op,
      (∃ q ∈ h.book.ladder.side x.1.aggressorSide.opp,
        q.price = x.1.price ∧ q.order.id = x.1.restingId) ∧
      ∀ e ∈ x.2, ∀ n ∈ e.2, n.val.id ≠ x.1.restingId →
        ¬ h.Ahead x.1.aggressorSide.opp e.1 n.val.id x.1.price x.1.restingId from
    ⟨h.book.trail_trades op, fun _ _ _ hx => hi.rep.trail_leftOf hx,
      fun x hx => hresting (hall x hx).1, fun x hx => (hall x hx).2⟩
  intro x hx
  cases op with
  | add o ts => exact snapshot_first hi.rep hi.kept hx
  | cancel id ts => exact absurd hx List.not_mem_nil
  | replace req ts =>
    -- the submission meets the book without the old order
    have hc := hi.rep.cancelOrder {} req.orderId ts
    rw [L3OrderBook.trail] at hx
    split_ifs at hx
    · exact absurd hx List.not_mem_nil
    · obtain ⟨⟨q, hq, hqx⟩, hfirst⟩ :=
        snapshot_first hc.repInv (hc.ladder ▸ hi.kept.cancel req.orderId) hx
      rw [hc.ladder] at hq
      exact ⟨⟨q, List.mem_of_mem_filter hq, hqx⟩, hfirst⟩

/-- **Price-time priority**: in every call of every run, each trade is with an order that no other
order of its side is ahead of. -/
theorem run_prioritised (symbol : Symbol) (ops : List BookOp) (op : BookOp) :
    ((start symbol).run ops).Prioritised op :=
  ((inv_start symbol).run ops).prioritised op

end History

end HftSdk
