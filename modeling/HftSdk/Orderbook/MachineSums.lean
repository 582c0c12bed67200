import HftSdk.Orderbook.Levels
import HftSdk.Orderbook.MachineBook

/-!
# Sums of quantities on 64-bit integers

Nothing bounds what rests on a level, so a sum over it may leave the range of `int64_t`, though every
order's own quantity is in it. A sum is right exactly when the exact one is below `2 ^ 63`, and the
fill-or-kill decision is right wherever the scan is (`sums_exact_iff`).
-/

namespace HftSdk

namespace MachineBook

open Machine (Fits lt_ofInt_iff toInt_ofInt_eq_iff_lt)

/-- A fill-or-kill order as the code can receive it. -/
abbrev FokOrder := { o : Order // o.tif = .fok ∧ Fits o.price ∧ Fits o.quantity }

/-- What sums up quantities. -/
inductive Query
  | fok (order : FokOrder)
  | bestBid
  | bestAsk
  | bidDepth (levels : Nat)
  | askDepth (levels : Nat)
  | quantityAhead (id : OrderId)

/-- The sums that the code computes. -/
def sums (b : L3OrderBook) : Query → List Int64
  | .fok order => [fokAvailable order.1 (b.levels order.1.side.opp).entries 0]
  | .bestBid => (bestBid b).toList.map BookLevel.qty
  | .bestAsk => (bestAsk b).toList.map BookLevel.qty
  | .bidDepth levels => (bidDepth b levels).map BookLevel.qty
  | .askDepth levels => (askDepth b levels).map BookLevel.qty
  | .quantityAhead id => [quantityAhead b id]

/-- The exact sums: of the levels that the scan has to walk over to find the quantity, of the orders
on a level, and of the orders ahead. -/
def exactSums (b : L3OrderBook) : Query → List Int
  | .fok order => [HftSdk.fokAvailable order.1 (b.levels order.1.side.opp).entries 0]
  | .bestBid => b.bestBid.toList.map HftSdk.BookLevel.qty
  | .bestAsk => b.bestAsk.toList.map HftSdk.BookLevel.qty
  | .bidDepth levels => (b.bidDepth levels).map HftSdk.BookLevel.qty
  | .askDepth levels => (b.askDepth levels).map HftSdk.BookLevel.qty
  | .quantityAhead id => [b.quantityAhead id]

/-- A fill-or-kill order of positive quantity is filled if and only if what it may trade against is
at least its quantity. -/
def Decided (b : L3OrderBook) : Query → Prop
  | .fok order => 0 < order.1.quantity → order.1.id ∉ b.orderIndex → ∀ ts,
    ((addOrder b order.1 ts).1.status = .filled ↔ order.1.quantity ≤ b.tradableQty order.1)
  | _ => True

/-- The sums are exact, and so is what is decided by them. -/
structure Exact (b : L3OrderBook) (q : Query) : Prop where
  sums : (sums b q).map Int64.toInt = exactSums b q
  decided : Decided b q

variable {b : L3OrderBook}

/-! ## Sums -/

theorem Inv.quantityAhead_nonneg (h : Inv b) (id : OrderId) : 0 ≤ b.quantityAhead id := by
  apply List.sum_nonneg
  intro x hx
  obtain ⟨o, ho, rfl⟩ := List.mem_map.mp hx
  unfold L3OrderBook.ordersAhead at ho
  cases hloc : b.orderIndex.lookup id with
  | none =>
    rw [hloc] at ho
    exact absurd ho List.not_mem_nil
  | some loc =>
    rw [hloc] at ho
    obtain ⟨n, hn, rfl⟩ := List.mem_map.mp (List.takeWhile_subset _ ho)
    have hq := List.mem_map_of_mem (f := fun n => Quote.of (loc.price, n)) hn
    rw [L3OrderBook.queueAt_quotes] at hq
    exact (h.repInv.inv.sound _ _ (List.mem_of_mem_filter hq)).visible

theorem Inv.exactSums_nonneg (h : Inv b) (q : Query) : ∀ x ∈ exactSums b q, 0 ≤ x := by
  have hlevels : ∀ (s : Side) (es : List (Int × OrderQueue)), es ⊆ (b.levels s).entries →
      ∀ x ∈ (es.map HftSdk.bookLevel).map HftSdk.BookLevel.qty, 0 ≤ x := by
    intro s es hsub x hx
    obtain ⟨l, hl, rfl⟩ := List.mem_map.mp hx
    obtain ⟨e, he, rfl⟩ := List.mem_map.mp hl
    exact (h.level (hsub he)).2.2
  have hbest : ∀ (s : Side),
      ∀ x ∈ ((b.levels s).entries.head?.map HftSdk.bookLevel).toList.map HftSdk.BookLevel.qty, 0 ≤ x := by
    intro s
    rw [← List.head?_map, ← List.take_one, ← List.map_take]
    exact hlevels s _ (List.take_subset _ _)
  cases q with
  | fok order =>
    intro x hx
    rw [List.mem_singleton.mp hx]
    exact le_exact_fokAvailable _ (levels_pos h.repInv _) 0
  | bestBid => exact hbest .buy
  | bestAsk => exact hbest .sell
  | bidDepth levels => exact hlevels .buy _ (List.take_subset _ _)
  | askDepth levels => exact hlevels .sell _ (List.take_subset _ _)
  | quantityAhead id =>
    intro x hx
    rw [List.mem_singleton.mp hx]
    exact h.quantityAhead_nonneg id

theorem Inv.sums_eq (h : Inv b) (q : Query) (hfits : ∀ x ∈ exactSums b q, x < 2 ^ 63) :
    sums b q = (exactSums b q).map Int64.ofInt := by
  cases q with
  | fok order =>
    have hlt := hfits _ (List.mem_singleton.mpr rfl)
    have heq := fokAvailable_eq (levels_pos h.repInv _) order.2.2.2 (le_refl 0) hlt
    exact congrArg (fun x => [x]) heq
  | bestBid =>
    rw [sums, exactSums, bestBid_eq]
    cases b.bestBid <;> rfl
  | bestAsk =>
    rw [sums, exactSums, bestAsk_eq]
    cases b.bestAsk <;> rfl
  | bidDepth levels =>
    rw [sums, exactSums, bidDepth_eq, List.map_map, List.map_map]
    rfl
  | askDepth levels =>
    rw [sums, exactSums, askDepth_eq, List.map_map, List.map_map]
    rfl
  | quantityAhead id =>
    rw [sums, exactSums, quantityAhead_eq]
    rfl

theorem Inv.map_sums_eq_iff (h : Inv b) (q : Query) :
    (sums b q).map Int64.toInt = exactSums b q ↔ ∀ x ∈ exactSums b q, x < 2 ^ 63 := by
  constructor
  · intro heq x hx
    rw [← heq] at hx
    obtain ⟨a, -, rfl⟩ := List.mem_map.mp hx
    exact a.toInt_lt
  · intro hfits
    rw [h.sums_eq q hfits, List.map_map]
    conv_rhs => rw [← List.map_id (exactSums b q)]
    apply List.map_congr_left
    intro x hx
    exact (toInt_ofInt_eq_iff_lt (h.exactSums_nonneg q x hx)).mpr (hfits x hx)

/-! ## The decision -/

theorem Inv.fok_decided (h : Inv b) {o : Order} (hq : Fits o.quantity)
    (hlt : HftSdk.fokAvailable o (b.levels o.side.opp).entries 0 < 2 ^ 63) (hpos : 0 < o.quantity)
    (hid : o.id ∉ b.orderIndex) (ts : Timestamp) :
    (addOrder b o ts).1.status = .filled ↔ o.quantity ≤ b.tradableQty o := by
  have hlevels := levels_pos h.repInv o.side.opp
  have hnonneg := le_exact_fokAvailable o hlevels 0
  have heq : fokAvailable o (b.levels o.side.opp).entries 0 = _ :=
    fokAvailable_eq hlevels hq (le_refl 0) hlt
  have hscan : fokAvailable o (b.levels o.side.opp).entries 0 < .ofInt o.quantity ↔
      HftSdk.fokAvailable o (b.levels o.side.opp).entries 0 < o.quantity := by
    rw [heq, lt_ofInt_iff hq, (toInt_ofInt_eq_iff_lt hnonneg).mpr hlt]
  have hm : matchIncoming b o ts = b.matchIncoming o ts := by
    rw [matchIncoming_eq, L3OrderBook.matchIncoming_eq]
    simp only [hscan]
  have hnot : ¬ b.ladder.Has o.id := mt (h.repInv.mem_index _).mpr hid
  have hstatus : (b.addOrder o ts).rpt.status = (L3OrderBook.reported o (b.ladder.remainder o)).1 :=
    congrArg Prod.fst (h.repInv.outcome hnot ts).rpt
  rw [addOrder_of_match hm, hstatus, L3OrderBook.reported_filled_iff,
    h.repInv.inv.remainder_eq_zero_iff, L3OrderBook.tradableQty_eq]
  omega

theorem Inv.decided (h : Inv b) (q : Query) (hfits : ∀ x ∈ exactSums b q, x < 2 ^ 63) :
    Decided b q := by
  cases q with
  | fok order =>
    exact h.fok_decided order.2.2.2 (hfits _ (List.mem_singleton.mpr rfl))
  | bestBid => trivial
  | bestAsk => trivial
  | bidDepth levels => trivial
  | askDepth levels => trivial
  | quantityAhead id => trivial

/-! ## Runs -/

/-- **After any calls, whatever is summed up**: the sum is exact, and a fill-or-kill order is decided
rightly by it, if and only if the exact sum is below `2 ^ 63`. -/
theorem sums_exact_iff (symbol : Symbol) (ops : List Op) (q : Query) :
    Exact (run (.create symbol) ops) q ↔ ∀ x ∈ exactSums (run (.create symbol) ops) q, x < 2 ^ 63 := by
  have h := inv_run symbol ops
  constructor
  · intro hexact
    exact (h.map_sums_eq_iff q).mp hexact.sums
  · intro hfits
    exact ⟨(h.map_sums_eq_iff q).mpr hfits, h.decided q hfits⟩

/-- Two orders of 5 on a level. -/
theorem sums_exact_level :
    Exact (run (.create {}) [⟨.add { id := 1, traderId := 1, price := 100, quantity := 5 } 0, by decide⟩,
      ⟨.add { id := 2, traderId := 2, price := 100, quantity := 5 } 1, by decide⟩]) .bestBid :=
  (sums_exact_iff {} _ .bestBid).mpr (by decide)

/-- The quantity of a call is positive. -/
def Positive : BookOp → Prop
  | .add order _ => 0 < order.quantity
  | .cancel .. => True
  | .replace req _ => 0 < req.newQty

instance : DecidablePred Positive
  | .add order _ => inferInstanceAs (Decidable (0 < order.quantity))
  | .cancel .. => inferInstanceAs (Decidable True)
  | .replace req _ => inferInstanceAs (Decidable (0 < req.newQty))

/-- Two bids at one price, of the greatest quantity there is. -/
def fullBids : List Op :=
  [⟨.add { id := 1, traderId := 1, price := 100, quantity := 9223372036854775807 } 0, by decide⟩,
    ⟨.add { id := 2, traderId := 2, price := 100, quantity := 9223372036854775807 } 1, by decide⟩]

/-- They add up to -2: a fill-or-kill sell order for 10 at their price is rejected. -/
theorem fok_killed_by_wrapping :
    ¬ ∀ (symbol : Symbol) (ops : List Op), (∀ op ∈ ops, Positive op.1) →
      ∀ q, Exact (run (.create symbol) ops) q := by
  intro h
  let order : Order := { id := 3, traderId := 3, side := .sell, tif := .fok, price := 100, quantity := 10 }
  have hexact := h {} fullBids (by decide) (.fok ⟨order, by decide⟩)
  have hfilled := (hexact.decided (by decide) (by decide) 2).mpr (by decide)
  exact absurd hfilled (by decide)

end MachineBook

end HftSdk
