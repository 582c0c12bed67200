import HftSdk.Common.MachineInt
import HftSdk.Lib.Run
import HftSdk.Orderbook.Greedy
import HftSdk.Orderbook.Reports

/-!
# The order book on 64-bit integers

Prices and quantities are `int64_t`s. What the book keeps of one order stays between zero and its
quantity (`Ranged`), so the exact fields stand for machine integers; sums over several orders
may leave the range. Here the sums are computed on `Int64`: the fill-or-kill scan, which decides
whether an order is matched, and what the queries add up. `total_volume_` wraps around too, but
nothing here reads it, and it is left exact.

A scan that wraps around finds less than there is, never more. So a call leaves the book that the
exact call leaves, or kills an order that could be filled and leaves the book as it was
(`next_cases`).
-/

namespace HftSdk

namespace MachineBook

open Machine (Fits sumFrom sumFrom_ofInt ofInt_le_iff lt_ofInt_iff toInt_ofInt_le
  toInt_ofInt_eq_iff_lt)

/-! ## Queries -/

structure BookLevel where
  price : Int64 := 0
  qty : Int64 := 0
  orderCount : Nat := 0
deriving DecidableEq

def bookLevel (e : Int × OrderQueue) : BookLevel where
  price := .ofInt e.1
  qty := sumFrom 0 (e.2.map fun n => .ofInt n.val.visibleQty)
  orderCount := e.2.length

def bestBid (b : L3OrderBook) : Option BookLevel := b.bids.entries.head?.map bookLevel

def bestAsk (b : L3OrderBook) : Option BookLevel := b.asks.entries.head?.map bookLevel

def bidDepth (b : L3OrderBook) (levels : Nat) : List BookLevel :=
  (b.bids.entries.take levels).map bookLevel

def askDepth (b : L3OrderBook) (levels : Nat) : List BookLevel :=
  (b.asks.entries.take levels).map bookLevel

def quantityAhead (b : L3OrderBook) (id : OrderId) : Int64 :=
  sumFrom 0 ((b.ordersAhead id).map fun o => .ofInt o.visibleQty)

/-! ## Matching -/

/-- `o.visible_qty + o.hidden_qty`. -/
def openQty (o : L3Order) : Int64 := .ofInt o.visibleQty + .ofInt o.hiddenQty

/-- The liquidity scan of the fill-or-kill check. -/
def fokAvailable (order : Order) : List (Int × OrderQueue) → Int64 → Int64
  | [], available => available
  | (price, queue) :: levels, available =>
    if beyondLimit order price then available
    else
      let available := sumFrom available (queue.map fun n => openQty n.val)
      if .ofInt order.quantity ≤ available then available else fokAvailable order levels available

def matchIncoming (b : L3OrderBook) (order : Order) (ts : Timestamp) : MatchResult × L3OrderBook :=
  let available :=
    match order.side with
    | .buy => fokAvailable order b.asks.entries 0
    | .sell => fokAvailable order b.bids.entries 0
  if order.tif = .fok ∧ available < .ofInt order.quantity then ({ remainingQty := order.quantity }, b)
  else
    match order.side with
    | .buy =>
      let r := matchAgainst b.asks order b.toBookCore order.quantity ts
      (⟨r.trades, r.remaining, r.remaining = 0⟩, { b with toBookCore := r.core, asks := r.left })
    | .sell =>
      let r := matchAgainst b.bids order b.toBookCore order.quantity ts
      (⟨r.trades, r.remaining, r.remaining = 0⟩, { b with toBookCore := r.core, bids := r.left })

/-! ## Order operations -/

/-- `add_order`, without the callbacks. -/
def addOrder (b : L3OrderBook) (order : Order) (ts : Timestamp) : ExecutionReport × L3OrderBook :=
  let rpt := L3OrderBook.addReport order ts
  if order.id ∈ b.orderIndex then
    ({ rpt with status := .rejected, rejectReason := .duplicateOrderId, leavesQty := 0 }, b)
  else
    let (result, b) := matchIncoming b order ts
    b.handleRemainder (L3OrderBook.matchedReport rpt order result) order result ts

/-- `add_order`, with the callbacks. What a top of book shows is left exact. -/
def submit (b : L3OrderBook) (order : Order) (ts : Timestamp) : BookResult :=
  let rpt := L3OrderBook.addReport order ts
  if order.id ∈ b.orderIndex then
    ⟨{ rpt with status := .rejected, rejectReason := .duplicateOrderId, leavesQty := 0 }, b, []⟩
  else
    let (result, b) := matchIncoming b order ts
    let (rpt, b) := b.handleRemainder (L3OrderBook.matchedReport rpt order result) order result ts
    let tob := if result.trades ≠ [] ∨ rpt.status = .new then [b.publishTob ts] else []
    ⟨rpt, b, result.trades.map .trade ++ tob⟩

def replaceOrder (b : L3OrderBook) (req : ReplaceRequest) (ts : Timestamp) :
    ExecutionReport × L3OrderBook :=
  let cancel := b.cancelOrder req.orderId ts
  if cancel.rpt.status ≠ .canceled then ({ cancel.rpt with status := .rejected }, cancel.book)
  else addOrder cancel.book (L3OrderBook.replacement req cancel.rpt.side ts) ts

/-- The prices and quantities of a call are `int64_t`s. -/
def OpFits : BookOp → Prop
  | .add order _ => Fits order.price ∧ Fits order.quantity
  | .cancel .. => True
  | .replace req _ => Fits req.newPrice ∧ Fits req.newQty

instance : DecidablePred OpFits
  | .add order _ => inferInstanceAs (Decidable (Fits order.price ∧ Fits order.quantity))
  | .cancel .. => inferInstanceAs (Decidable True)
  | .replace req _ => inferInstanceAs (Decidable (Fits req.newPrice ∧ Fits req.newQty))

/-- A call as the code can receive it. -/
abbrev Op := { op : BookOp // OpFits op }

/-- The book after a call. -/
def next (b : L3OrderBook) (op : Op) : L3OrderBook :=
  match op.1 with
  | .add order ts => (addOrder b order ts).2
  | .cancel id ts => (b.cancelOrder id ts).book
  | .replace req ts => (replaceOrder b req ts).2

/-- The book after a sequence of calls. -/
def run (b : L3OrderBook) (ops : List Op) : L3OrderBook := ops.foldl next b

/-! ## Sums that wrap around -/

theorem openQty_eq (o : L3Order) : openQty o = .ofInt o.openQty := by
  rw [openQty, L3Order.openQty, Int64.ofInt_add]

theorem scan_level (queue : OrderQueue) (x : Int) :
    sumFrom (.ofInt x) (queue.map fun n => openQty n.val) =
      .ofInt (x + (queue.map fun n => n.val.openQty).sum) := by
  rw [← sumFrom_ofInt, List.map_map]
  congr 1
  apply List.map_congr_left
  intro n _
  exact openQty_eq n.val

theorem sumFrom_zero {α : Type} (f : α → Int) (l : List α) :
    sumFrom 0 (l.map fun a => .ofInt (f a)) = .ofInt (l.map f).sum := by
  rw [← Int.zero_add (l.map f).sum, ← sumFrom_ofInt, List.map_map]
  rfl

/-- A level as machine integers. -/
def machineLevel (l : HftSdk.BookLevel) : BookLevel := ⟨.ofInt l.price, .ofInt l.qty, l.orderCount⟩

theorem bookLevel_eq (e : Int × OrderQueue) : bookLevel e = machineLevel (HftSdk.bookLevel e) := by
  unfold bookLevel
  rw [sumFrom_zero fun n : ListNode L3Order => n.val.visibleQty]
  rfl

theorem bookLevel_comp : bookLevel = machineLevel ∘ HftSdk.bookLevel := by
  funext e
  exact bookLevel_eq e

theorem bestBid_eq (b : L3OrderBook) : bestBid b = b.bestBid.map machineLevel := by
  unfold bestBid L3OrderBook.bestBid
  rw [Option.map_map, bookLevel_comp]

theorem bestAsk_eq (b : L3OrderBook) : bestAsk b = b.bestAsk.map machineLevel := by
  unfold bestAsk L3OrderBook.bestAsk
  rw [Option.map_map, bookLevel_comp]

theorem bidDepth_eq (b : L3OrderBook) (levels : Nat) :
    bidDepth b levels = (b.bidDepth levels).map machineLevel := by
  unfold bidDepth L3OrderBook.bidDepth
  rw [List.map_map, bookLevel_comp]

theorem askDepth_eq (b : L3OrderBook) (levels : Nat) :
    askDepth b levels = (b.askDepth levels).map machineLevel := by
  unfold askDepth L3OrderBook.askDepth
  rw [List.map_map, bookLevel_comp]

theorem quantityAhead_eq (b : L3OrderBook) (id : OrderId) :
    quantityAhead b id = .ofInt (b.quantityAhead id) := sumFrom_zero _ _

/-! ## The scan -/

section Scan

variable {order : Order} {levels : List (Int × OrderQueue)}

theorem sum_openQty_nonneg {p : Int} {queue : OrderQueue}
    (hpos : ∀ q ∈ quotes ((p, queue) :: levels), 0 < q.openQty) :
    0 ≤ (queue.map fun n => n.val.openQty).sum := by
  apply List.sum_nonneg
  intro x hx
  obtain ⟨n, hn, rfl⟩ := List.mem_map.mp hx
  have hmem : Quote.of (p, n) ∈ quotes ((p, queue) :: levels) := by
    rw [quotes_cons]
    exact List.mem_append_left _ (List.mem_map_of_mem hn)
  exact (hpos _ hmem).le

theorem le_exact_fokAvailable (order : Order) (hpos : ∀ q ∈ quotes levels, 0 < q.openQty) (x : Int) :
    x ≤ HftSdk.fokAvailable order levels x := by
  induction levels generalizing x with
  | nil => exact le_refl x
  | cons e levels ih =>
    obtain ⟨p, queue⟩ := e
    have hsum := sum_openQty_nonneg hpos
    rw [HftSdk.fokAvailable]
    dsimp only
    split_ifs
    · omega
    · omega
    · have := ih (quotes_tail_pos hpos) (x + (queue.map fun n => n.val.openQty).sum)
      omega

/-- **The scan is exact as long as it fits**: while the exact total is in the range, both totals and
so the places where the loops break are the same. -/
theorem fokAvailable_eq (hpos : ∀ q ∈ quotes levels, 0 < q.openQty) (hq : Fits order.quantity)
    {x : Int} (hx : 0 ≤ x) (hfits : HftSdk.fokAvailable order levels x < 2 ^ 63) :
    fokAvailable order levels (.ofInt x) = .ofInt (HftSdk.fokAvailable order levels x) := by
  induction levels generalizing x with
  | nil => rfl
  | cons e levels ih =>
    obtain ⟨p, queue⟩ := e
    have hsum := sum_openQty_nonneg hpos
    have htail := quotes_tail_pos hpos
    have hle := le_exact_fokAvailable order htail
      (x + (queue.map fun n => n.val.openQty).sum)
    rw [HftSdk.fokAvailable] at hfits ⊢
    rw [fokAvailable]
    dsimp only at hfits ⊢
    rw [scan_level]
    by_cases hp : beyondLimit order p = true
    · rw [if_pos hp, if_pos hp]
    · rw [if_neg hp] at hfits ⊢
      rw [if_neg hp]
      have htotal : x + (queue.map fun n => n.val.openQty).sum < 2 ^ 63 := by
        split_ifs at hfits
        · exact hfits
        · omega
      have hsame : Int64.ofInt order.quantity ≤ .ofInt (x + (queue.map fun n => n.val.openQty).sum) ↔
          order.quantity ≤ x + (queue.map fun n => n.val.openQty).sum := by
        rw [ofInt_le_iff hq, (toInt_ofInt_eq_iff_lt (by omega)).mpr htotal]
      simp only [hsame]
      split_ifs with hbreak
      · rfl
      · rw [if_neg hbreak] at hfits
        exact ih htail (by omega) hfits

theorem fokAvailable_le (order : Order) (hpos : ∀ q ∈ quotes levels, 0 < q.openQty) {x : Int} (hx : 0 ≤ x) :
    (fokAvailable order levels (.ofInt x)).toInt ≤
      x + Sweep.total Quote.openQty (within order levels) := by
  induction levels generalizing x with
  | nil => exact (toInt_ofInt_le hx).trans (Int.add_zero x).ge
  | cons e levels ih =>
    obtain ⟨p, queue⟩ := e
    have hsum := sum_openQty_nonneg hpos
    have htail := quotes_tail_pos hpos
    rw [fokAvailable, total_within_cons]
    dsimp only
    rw [scan_level]
    by_cases hp : beyondLimit order p = true
    · rw [if_pos hp, if_pos hp, Int.add_zero]
      exact toInt_ofInt_le hx
    · rw [if_neg hp, if_neg hp, ← Int.add_assoc]
      split_ifs
      · have hle : (Int64.ofInt (x + (queue.map fun n => n.val.openQty).sum)).toInt ≤ _ :=
          toInt_ofInt_le (by omega)
        have := total_within_nonneg order htail
        omega
      · exact ih htail (by omega)

end Scan

/-! ## Calls -/

section Calls

variable {b : L3OrderBook} {o : Order}

theorem levels_pos (h : b.RepInv) (s : Side) : ∀ q ∈ quotes (b.levels s).entries, 0 < q.openQty :=
  fun q hq => (h.inv.sound s q hq).pos

theorem matchIncoming_eq (b : L3OrderBook) (o : Order) (ts : Timestamp) :
    matchIncoming b o ts =
      if o.tif = .fok ∧ fokAvailable o (b.levels o.side.opp).entries 0 < .ofInt o.quantity then
        ({ remainingQty := o.quantity }, b)
      else
        let r := matchAgainst (b.levels o.side.opp) o b.toBookCore o.quantity ts
        (⟨r.trades, r.remaining, r.remaining = 0⟩,
          { b.setLevels o.side.opp r.left with toBookCore := r.core }) := by
  unfold matchIncoming
  cases o.side <;> rfl

/-- The scan kills the order. -/
def Kills (b : L3OrderBook) (o : Order) : Prop :=
  o.tif = .fok ∧ fokAvailable o (b.levels o.side.opp).entries 0 < .ofInt o.quantity

instance (b : L3OrderBook) (o : Order) : Decidable (Kills b o) :=
  inferInstanceAs (Decidable (_ ∧ _))

theorem matchIncoming_of_kills (hkills : Kills b o) (ts : Timestamp) :
    matchIncoming b o ts = ({ remainingQty := o.quantity }, b) := by
  rw [matchIncoming_eq]
  exact if_pos hkills

/-- **The match is the exact one** unless the order is killed: the exact scan finds at least as
much. -/
theorem matchIncoming_of_not_kills (h : b.RepInv) (hq : Fits o.quantity) (hkills : ¬ Kills b o)
    (ts : Timestamp) : matchIncoming b o ts = b.matchIncoming o ts := by
  have hpos := levels_pos h o.side.opp
  unfold Kills at hkills
  rw [matchIncoming_eq, L3OrderBook.matchIncoming_eq, if_neg hkills, if_neg]
  rintro ⟨hfok, hlt⟩
  refine hkills ⟨hfok, (lt_ofInt_iff hq).mpr ?_⟩
  have hle := fokAvailable_le o hpos (le_refl 0)
  have hexact := mt (le_fokAvailable hpos 0).mpr (not_le.mpr hlt)
  exact lt_of_le_of_lt hle (not_le.mp hexact)

theorem matchIncoming_cases (h : b.RepInv) (hq : Fits o.quantity) (ts : Timestamp) :
    matchIncoming b o ts = b.matchIncoming o ts ∨
      o.tif = .fok ∧ matchIncoming b o ts = ({ remainingQty := o.quantity }, b) := by
  by_cases hkills : Kills b o
  · exact Or.inr ⟨hkills.1, matchIncoming_of_kills hkills ts⟩
  · exact Or.inl (matchIncoming_of_not_kills h hq hkills ts)

theorem matchIncoming_of_ne_fok (b : L3OrderBook) (htif : o.tif ≠ .fok) (ts : Timestamp) :
    matchIncoming b o ts = b.matchIncoming o ts := by
  rw [matchIncoming_eq, L3OrderBook.matchIncoming_eq, if_neg fun h => htif h.1,
    if_neg fun h => htif h.1]

theorem addOrder_of_match {ts : Timestamp} (hm : matchIncoming b o ts = b.matchIncoming o ts) :
    addOrder b o ts = ((b.addOrder o ts).rpt, (b.addOrder o ts).book) := by
  by_cases hid : o.id ∈ b.orderIndex
  · rw [addOrder, L3OrderBook.addOrder, if_pos hid, if_pos hid]
  · obtain ⟨hrpt, hbook, -⟩ := L3OrderBook.addOrder_of_not_mem hid ts
    rw [addOrder, if_neg hid, hm, hrpt, hbook]

theorem addOrder_cases (h : b.RepInv) (hq : Fits o.quantity) (ts : Timestamp) :
    (addOrder b o ts).2 = (b.addOrder o ts).book ∨ (addOrder b o ts).2 = b := by
  rcases matchIncoming_cases h hq ts with hm | ⟨htif, hm⟩
  · left
    rw [addOrder_of_match hm]
  · right
    rw [addOrder]
    by_cases hid : o.id ∈ b.orderIndex
    · rw [if_pos hid]
    · rw [if_neg hid, hm, L3OrderBook.handleRemainder_book, if_neg fun hr => by simp [htif] at hr]

theorem addOrder_eq_submit (b : L3OrderBook) (o : Order) (ts : Timestamp) :
    addOrder b o ts = ((submit b o ts).rpt, (submit b o ts).book) := by
  unfold addOrder submit
  dsimp only
  split_ifs <;> rfl

theorem submit_of_match {ts : Timestamp} (hm : matchIncoming b o ts = b.matchIncoming o ts) :
    submit b o ts = b.addOrder o ts := by
  unfold submit L3OrderBook.addOrder
  rw [hm]

/-- The exact total that a fill-or-kill scan comes to is an `int64_t`. -/
def ScanFits (b : L3OrderBook) (o : Order) : Prop :=
  o.tif = .fok → HftSdk.fokAvailable o (b.levels o.side.opp).entries 0 < 2 ^ 63

instance (b : L3OrderBook) (o : Order) : Decidable (ScanFits b o) :=
  inferInstanceAs (Decidable (_ → _))

theorem kills_iff (h : b.RepInv) (hq : Fits o.quantity) (hfits : ScanFits b o) :
    Kills b o ↔ o.tif = .fok ∧ HftSdk.fokAvailable o (b.levels o.side.opp).entries 0 < o.quantity := by
  apply and_congr_right
  intro hfok
  have hpos := levels_pos h o.side.opp
  have hnonneg := le_exact_fokAvailable o hpos 0
  have heq : fokAvailable o (b.levels o.side.opp).entries 0 = _ :=
    fokAvailable_eq hpos hq (le_refl 0) (hfits hfok)
  rw [heq, lt_ofInt_iff hq, (toInt_ofInt_eq_iff_lt hnonneg).mpr (hfits hfok)]

theorem submit_of_fits (h : b.RepInv) (hq : Fits o.quantity) (hfits : ScanFits b o) (ts : Timestamp) :
    submit b o ts = b.addOrder o ts := by
  have hkills := kills_iff h hq hfits
  unfold Kills at hkills
  apply submit_of_match
  rw [matchIncoming_eq, L3OrderBook.matchIncoming_eq]
  simp only [hkills]

theorem submit_of_not_kills (h : b.RepInv) (hq : Fits o.quantity) (hkills : ¬ Kills b o)
    (ts : Timestamp) : submit b o ts = b.addOrder o ts :=
  submit_of_match (matchIncoming_of_not_kills h hq hkills ts)

theorem submit_of_kills (hid : o.id ∉ b.orderIndex) (hkills : Kills b o) (ts : Timestamp) :
    (submit b o ts).trades = [] ∧ (submit b o ts).book = b ∧
      ((submit b o ts).rpt.status, (submit b o ts).rpt.filledQty, (submit b o ts).rpt.leavesQty,
        (submit b o ts).rpt.rejectReason) = L3OrderBook.reported o o.quantity := by
  have hm := matchIncoming_of_kills hkills ts
  have hreported := L3OrderBook.handleRemainder_reported b o { remainingQty := o.quantity } ts
  unfold submit
  rw [if_neg hid, hm]
  refine ⟨?_, ?_, hreported⟩
  · unfold BookResult.trades
    dsimp only
    split_ifs <;> rfl
  · dsimp only
    rw [L3OrderBook.handleRemainder_book, if_neg fun hr => by simp [hkills.1] at hr]

theorem replaceOrder_eq (b : L3OrderBook) (req : ReplaceRequest) (ts : Timestamp) :
    replaceOrder b req ts = ((b.replaceOrder req ts).rpt, (b.replaceOrder req ts).book) := by
  rw [replaceOrder, L3OrderBook.replaceOrder]
  dsimp only
  split_ifs
  · rfl
  · apply addOrder_of_match
    apply matchIncoming_of_ne_fok
    simp [L3OrderBook.replacement]

/-- **What a call leaves**: the book of the exact call, or the book as it was. -/
theorem next_cases (h : b.RepInv) (op : Op) : next b op = (b.step op.1).book ∨ next b op = b := by
  obtain ⟨op, hop⟩ := op
  cases op with
  | add o ts => exact addOrder_cases h hop.2 ts
  | cancel id ts => exact Or.inl rfl
  | replace req ts => exact Or.inl (congrArg Prod.snd (replaceOrder_eq b req ts))

end Calls

/-! ## The range of a resting order -/

/-- What rests of an order and what was filled of it are together at most an `int64_t`. -/
structure Ranged (q : Quote) : Prop where
  price : Fits q.price
  filled : 0 ≤ q.order.filledQty
  whole : q.openQty + q.order.filledQty < 2 ^ 63

theorem Ranged.fits {q : Quote} (h : Ranged q) {s : Side} (hs : q.Sound s) :
    Fits q.order.price ∧ Fits q.order.visibleQty ∧ Fits q.order.hiddenQty ∧
      Fits q.order.filledQty := by
  have hfilled := h.filled
  have hwhole := h.whole
  have hvisible := hs.visible
  have hhidden := hs.hidden
  rw [Quote.openQty, L3Order.openQty] at hwhole
  rw [hs.price]
  refine ⟨h.price, ⟨?_, ?_⟩, ⟨?_, ?_⟩, ⟨?_, ?_⟩⟩ <;> omega

theorem ranged_cancel {L : Ladder} (hr : ∀ q ∈ L.all, Ranged q) (id : OrderId) :
    ∀ q ∈ (L.cancel id).all, Ranged q := by
  intro q hq
  obtain ⟨s, hq⟩ := Ladder.mem_all.mp hq
  exact hr q (Ladder.mem_all.mpr ⟨s, List.mem_of_mem_filter hq⟩)

theorem ranged_add {L : Ladder} (h : L.Inv) (hr : ∀ q ∈ L.all, Ranged q) {o : Order}
    (hprice : Fits o.price) (hqty : Fits o.quantity) (ts : Timestamp) :
    ∀ q ∈ (L.add o ts).all, Ranged q := by
  intro q hq
  by_cases hid : L.Has o.id
  · rw [Ladder.add, if_pos hid] at hq
    exact hr q hq
  · rcases h.mem_add hid hq with ⟨hrests, rfl⟩ | ⟨-, r, hrmem, hframe, hopen, hfilled⟩
    · have htaken := h.taken_nonneg o
      have hrem : L.remainder o = o.quantity - Sweep.taken (L.fillsOf o) := rfl
      have hmax := hqty.2
      refine ⟨hprice, ?_, ?_⟩
      · change 0 ≤ o.quantity - L.remainder o
        omega
      · change L.remainder o + 0 + (o.quantity - L.remainder o) < 2 ^ 63
        omega
    · have hold := hr r hrmem
      have htaken := h.takenFrom_nonneg o r.order.id
      have hwhole := hold.whole
      have hnonneg := hold.filled
      refine ⟨Quote.price_of_frame hframe ▸ hold.price, ?_, ?_⟩ <;> omega

theorem ranged_step {L : Ladder} (h : L.Inv) (hr : ∀ q ∈ L.all, Ranged q) (op : Op) :
    ∀ q ∈ (L.step op.1).all, Ranged q := by
  obtain ⟨op, hop⟩ := op
  cases op with
  | add o ts => exact ranged_add h hr hop.1 hop.2 ts
  | cancel id ts => exact ranged_cancel hr id
  | replace req ts =>
    dsimp only [Ladder.step, Ladder.replace]
    split
    · exact hr
    · exact ranged_add (h.cancel _) (ranged_cancel hr _) hop.1 hop.2 ts

/-! ## Runs -/

/-- The invariant of the book on 64-bit integers. -/
structure Inv (b : L3OrderBook) : Prop where
  repInv : b.RepInv
  ranged : ∀ q ∈ b.ladder.all, Ranged q

theorem inv_create (symbol : Symbol) : Inv (.create symbol) where
  repInv := L3OrderBook.repInv_create symbol
  ranged q hq := by
    rw [L3OrderBook.create_ladder] at hq
    exact absurd hq List.not_mem_nil

theorem Inv.level {b : L3OrderBook} (h : Inv b) {s : Side} {e : Int × OrderQueue} (he : e ∈ (b.levels s).entries) :
    (∃ q ∈ b.ladder.side s, q.price = e.1) ∧ Fits e.1 ∧ 0 ≤ (HftSdk.bookLevel e).qty := by
  obtain ⟨n, hn⟩ := List.exists_mem_of_ne_nil _ (h.repInv.nonempty s e he)
  have hq : Quote.of (e.1, n) ∈ b.ladder.side s := mem_quotes.mpr ⟨e, he, n, hn, rfl⟩
  refine ⟨⟨_, hq, rfl⟩, (h.ranged _ (Ladder.mem_all.mpr ⟨s, hq⟩)).price, ?_⟩
  apply List.sum_nonneg
  intro x hx
  obtain ⟨n, hn, rfl⟩ := List.mem_map.mp hx
  exact (h.repInv.soundOrder he hn).visible

theorem Inv.next {b : L3OrderBook} (h : Inv b) (op : Op) : Inv (next b op) := by
  rcases next_cases h.repInv op with heq | heq
  · obtain ⟨hladder, hrep⟩ := h.repInv.step op.1
    rw [heq]
    refine ⟨hrep, ?_⟩
    rw [hladder]
    exact ranged_step h.repInv.inv h.ranged op
  · rw [heq]
    exact h

theorem inv_run (symbol : Symbol) (ops : List Op) : Inv (run (.create symbol) ops) :=
  Run.invariant (fun _ op h => h.next op) ops (inv_create symbol)

theorem run_fits (symbol : Symbol) (ops : List Op) :
    ∀ n ∈ (run (.create symbol) ops).nodes, Fits n.val.price ∧ Fits n.val.visibleQty ∧
      Fits n.val.hiddenQty ∧ Fits n.val.filledQty := by
  intro n hn
  have h := inv_run symbol ops
  obtain ⟨q, hq, -, horder⟩ := L3OrderBook.quote_of_node hn
  obtain ⟨s, hs⟩ := Ladder.mem_all.mp hq
  have hfits := (h.ranged q hq).fits (h.repInv.inv.sound s q hs)
  rw [horder] at hfits
  exact hfits

theorem run_wellFormedSide (symbol : Symbol) (ops : List Op) (s : Side) :
    WellFormedSide ((run (.create symbol) ops).levels s) (run (.create symbol) ops).toBookCore := by
  have h := inv_run symbol ops
  apply h.repInv.wellFormedSide s
  intro x hx
  have hq : Quote.of x ∈ (run (.create symbol) ops).ladder.side s :=
    List.mem_map_of_mem (f := Quote.of) hx
  have hranged := h.ranged _ (Ladder.mem_all.mpr ⟨s, hq⟩)
  have hfilled := hranged.filled
  have hwhole := hranged.whole
  change x.2.val.visibleQty + x.2.val.hiddenQty + x.2.val.filledQty < 2 ^ 63 at hwhole
  change 0 ≤ x.2.val.filledQty at hfilled
  omega

end MachineBook

end HftSdk
