import HftSdk.Market.RestingOrders
import HftSdk.Lib.Run

/-!
# Canceling by id in the lightweight book

The index and the queues are kept in step by `addOrder`, `cancelOrder` and `matchIncoming` as long as
no order is added under an id that rests already: `addOrder` does not look. Quantities are arbitrary.
-/

namespace HftSdk

open Sweep

namespace OrderBook

/-! ## Calls -/

inductive Call
  | add (ord : BookOrder)
  | cancel (id : OrderId)
  | matchWith (incoming : BookOrder) (tsNs : Timestamp)

def step (ob : OrderBook) : Call → OrderBook
  | .add ord => ob.addOrder ord
  | .cancel id => (ob.cancelOrder id).2
  | .matchWith incoming tsNs => (ob.matchIncoming incoming tsNs).2

/-- The resting orders of a side with their levels' prices, in priority order. -/
def orders (ob : OrderBook) (s : Side) : List (Int × BookOrder) :=
  (ob.flat s).map fun x => (x.1, x.2.val)

/-- **The property**: whatever id is canceled, the call returns true when an order with the id rests
and only then; and if it does, none rests any more, the other orders stand where they stood, and each
of them can be canceled by its id. -/
structure Reliable (ob : OrderBook) : Prop where
  found : ∀ id, (ob.cancelOrder id).1 = true ↔ ob.Rests id
  gone : ∀ id, (ob.cancelOrder id).1 = true → ¬ (ob.cancelOrder id).2.Rests id
  others : ∀ id, (ob.cancelOrder id).1 = true → ∀ s,
    (ob.cancelOrder id).2.orders s = (ob.orders s).filter fun x => x.2.id ≠ id
  cancelable : ∀ id, (ob.cancelOrder id).1 = true → ∀ id', (ob.cancelOrder id).2.Rests id' →
    ((ob.cancelOrder id).2.cancelOrder id').1 = true ∧
      ¬ ((ob.cancelOrder id).2.cancelOrder id').2.Rests id'

/-- **The condition**: an order is added under an id that does not rest. -/
def Fresh (ob : OrderBook) : Call → Prop
  | .add ord => ¬ ob.Rests ord.id
  | .cancel _ => True
  | .matchWith _ _ => True

/-! ## The invariant -/

/-- The index has the resting orders, each by its id and where it stands, and no two orders share an
id or a list node. -/
structure Indexed (ob : OrderBook) : Prop where
  index : Indexes ob.order_index_ ob.entries
  addrs : (ob.entries.map fun e => e.2.it).Nodup
  fresh : ∀ e ∈ ob.entries, e.2.it < ob.nextAddr

theorem indexed_create (symbol : Symbol) : Indexed { symbol_ := symbol } :=
  ⟨Indexes.empty, List.nodup_nil, fun _ he => absurd he List.not_mem_nil⟩

namespace Indexed

variable {ob : OrderBook}

theorem of_sublist (h : Indexed ob) {ob' : OrderBook}
    (hindex : Indexes ob'.order_index_ ob'.entries) (hsub : ob'.entries.Subperm ob.entries)
    (hnext : ob'.nextAddr = ob.nextAddr) : Indexed ob' := by
  obtain ⟨es, hperm, hsub⟩ := hsub
  refine ⟨hindex, ?_, ?_⟩
  · exact (hperm.map _).nodup_iff.mp (h.addrs.sublist (hsub.map _))
  · intro e he
    rw [hnext]
    exact h.fresh e (hsub.subset (hperm.mem_iff.mpr he))

theorem mem_index (h : Indexed ob) (id : OrderId) : id ∈ ob.order_index_ ↔ ob.Rests id :=
  h.index.mem_iff.trans rests_iff.symm

theorem entryAt_eq_iff (h : Indexed ob) {id : OrderId} {loc : OrderLocation}
    (hl : ob.order_index_.lookup id = some loc) {s : Side} {x : Int × ListNode BookOrder}
    (hx : x ∈ ob.flat s) : (entryAt s x).2 = loc ↔ x.2.val.id = id := by
  have hmem : entryAt s x ∈ ob.entries := mem_entries.mpr ⟨s, x, hx, rfl⟩
  constructor
  · intro hloc
    have hentry := List.inj_on_of_nodup_map h.addrs hmem ((h.index.lookup id loc).mp hl)
      (congrArg OrderLocation.it hloc)
    exact congrArg Prod.fst hentry
  · rintro rfl
    have hlookup := (h.index.lookup _ _).mpr hmem
    exact Option.some_inj.mp (hlookup.symm.trans hl)

/-! ### Canceling -/

theorem cancelOrder_found (h : Indexed ob) (id : OrderId) :
    (ob.cancelOrder id).1 = true ↔ ob.Rests id := by
  rw [← h.mem_index, Finmap.mem_iff]
  unfold OrderBook.cancelOrder
  cases ob.order_index_.lookup id with
  | none => exact iff_of_false (by simp) (by simp)
  | some loc => exact iff_of_true rfl ⟨loc, rfl⟩

theorem flat_cancel (h : Indexed ob) (id : OrderId) (s : Side) :
    (ob.cancelOrder id).2.flat s = (ob.flat s).filter fun x => x.2.val.id ≠ id := by
  cases hl : ob.order_index_.lookup id with
  | none =>
    have hnot : ¬ ob.Rests id := by
      rw [← h.mem_index, Finmap.mem_iff, hl]
      simp
    rw [cancelOrder_of_none hl]
    refine (List.filter_eq_self.mpr fun x hx => ?_).symm
    exact decide_eq_true fun hid => hnot ⟨s, x, hx, hid⟩
  | some loc =>
    rw [flat_cancelOrder hl]
    apply List.filter_congr
    intro x hx
    rw [decide_eq_decide, ne_eq, ne_eq, h.entryAt_eq_iff hl hx]

theorem entries_cancel (h : Indexed ob) (id : OrderId) :
    (ob.cancelOrder id).2.entries = ob.entries.filter fun e => e.1 ≠ id := by
  have hside : ∀ s, (ob.cancelOrder id).2.sideEntries s =
      (ob.sideEntries s).filter fun e => e.1 ≠ id := by
    intro s
    unfold sideEntries
    rw [h.flat_cancel, List.filter_map]
    rfl
  unfold entries
  rw [hside, hside, List.filter_append]

theorem cancelOrder (h : Indexed ob) (id : OrderId) : Indexed (ob.cancelOrder id).2 := by
  have hentries := h.entries_cancel id
  obtain ⟨hindex, hnext, -⟩ := cancelOrder_frame ob id
  refine h.of_sublist ?_ ?_ hnext
  · rw [hentries, hindex]
    exact h.index.erase_filter id
  · rw [hentries]
    exact List.filter_sublist.subperm

/-! ### Adding -/

theorem addOrder (h : Indexed ob) {ord : BookOrder} (hfresh : ¬ ob.Rests ord.id) :
    Indexed (ob.addOrder ord) := by
  have hentries : (ob.addOrder ord).entries.Perm
      ((ord.id, ⟨ord.side, ord.price, ob.nextAddr⟩) :: ob.entries) := by
    refine (entries_perm _ ord.side).trans ?_
    unfold sideEntries
    rw [flat_addOrder_opp]
    refine (((flat_addOrder_perm ob ord).map _).append_right _).trans ?_
    exact List.Perm.cons _ (entries_perm ob ord.side).symm
  have hindex : (ob.addOrder ord).order_index_ =
      ob.order_index_.insert ord.id ⟨ord.side, ord.price, ob.nextAddr⟩ := by
    rw [addOrder_eq]
  have hnext : (ob.addOrder ord).nextAddr = ob.nextAddr + 1 := by rw [addOrder_eq]
  refine ⟨?_, ?_, ?_⟩
  · rw [hindex]
    exact (h.index.insert (mt (h.mem_index _).mp hfresh) _).perm hentries.symm
  · refine (hentries.map _).nodup_iff.mpr (List.nodup_cons.mpr ⟨?_, h.addrs⟩)
    intro hmem
    obtain ⟨e, he, hit⟩ := List.mem_map.mp hmem
    have := h.fresh e he
    dsimp only at hit
    omega
  · intro e he
    rw [hnext]
    rcases List.mem_cons.mp (hentries.mem_iff.mp he) with rfl | he
    · exact Nat.lt_succ_self _
    · exact Nat.lt_succ_of_lt (h.fresh e he)

/-! ### Matching -/

theorem matchIncoming (h : Indexed ob) (incoming : BookOrder) (tsNs : Timestamp) :
    Indexed (ob.matchIncoming incoming tsNs).2 := by
  obtain ⟨-, hopp, hown, hindex, hnext, -⟩ := matchIncoming_eq incoming tsNs ob
  generalize (ob.matchIncoming incoming tsNs).2 = ob' at hopp hown hindex hnext
  let used := ((fills qtyAt incoming.qty (ob.tradable incoming)).filter fun f =>
    f.2 = qtyAt f.1).map fun f => entryAt incoming.side.opp f.1
  -- the used-up orders are a front part of the other side
  have hside : ob.sideEntries incoming.side.opp = used ++ ob'.sideEntries incoming.side.opp := by
    have hswept := map_residue (f := entryAt incoming.side.opp) qtyAt_reduceAt
      (l := ob.tradable incoming) (fun _ _ => rfl) incoming.qty
    unfold sideEntries
    rw [hopp, flat_opp_eq, List.map_append, List.map_append, hswept, List.append_assoc]
  have hother : ob'.sideEntries incoming.side.opp.opp = ob.sideEntries incoming.side.opp.opp := by
    rw [Side.opp_opp]
    exact congrArg _ hown
  have hentries : ob.entries.Perm (used ++ ob'.entries) := by
    refine (entries_perm ob incoming.side.opp).trans ?_
    rw [hside, ← hother, List.append_assoc]
    exact (entries_perm ob' incoming.side.opp).symm.append_left used
  refine h.of_sublist ?_ ?_ hnext
  · have herase := (h.index.perm hentries).erase_append
    rw [List.foldl_map] at herase
    rw [hindex]
    exact herase
  · exact (List.sublist_append_right used _).subperm.trans hentries.symm.subperm

theorem step (h : Indexed ob) {c : Call} (hc : Fresh ob c) : Indexed (ob.step c) := by
  cases c with
  | add ord => exact h.addOrder hc
  | cancel id => exact h.cancelOrder id
  | matchWith incoming tsNs => exact h.matchIncoming incoming tsNs

/-! ### Reliability -/

theorem not_rests_cancel (h : Indexed ob) (id : OrderId) : ¬ (ob.cancelOrder id).2.Rests id := by
  rintro ⟨s, x, hx, hid⟩
  rw [h.flat_cancel] at hx
  exact of_decide_eq_true (List.mem_filter.mp hx).2 hid

theorem reliable (h : Indexed ob) : Reliable ob where
  found := h.cancelOrder_found
  gone id _ := h.not_rests_cancel id
  others id _ s := by
    unfold orders
    rw [h.flat_cancel, List.filter_map]
    rfl
  cancelable id _ id' hrests :=
    ⟨((h.cancelOrder id).cancelOrder_found id').mpr hrests, (h.cancelOrder id).not_rests_cancel id'⟩

theorem not_reliable_addOrder (h : Indexed ob) {ord : BookOrder} (hrests : ob.Rests ord.id) :
    ¬ Reliable (ob.addOrder ord) := by
  intro hrel
  obtain ⟨s, x, hx, hid⟩ := hrests
  have hlookup : (ob.addOrder ord).order_index_.lookup ord.id =
      some ⟨ord.side, ord.price, ob.nextAddr⟩ := by
    rw [addOrder_eq]
    exact Finmap.lookup_insert _
  have hmem : x ∈ (ob.addOrder ord).flat s := by
    rcases Side.eq_or_eq_opp ord.side s with rfl | rfl
    · exact (flat_addOrder_perm ob ord).mem_iff.mpr (List.mem_cons_of_mem _ hx)
    · rw [flat_addOrder_opp]
      exact hx
  have hold := h.fresh _ (mem_entries.mpr ⟨s, x, hx, rfl⟩)
  have hleft : x ∈ ((ob.addOrder ord).cancelOrder ord.id).2.flat s := by
    rw [flat_cancelOrder hlookup]
    refine List.mem_filter.mpr ⟨hmem, decide_eq_true fun hloc => ?_⟩
    rw [hloc] at hold
    exact lt_irrefl _ hold
  have hfound := (hrel.found ord.id).mpr ⟨s, x, hmem, hid⟩
  exact hrel.gone ord.id hfound ⟨s, x, hleft, hid⟩

theorem reliable_step_iff (h : Indexed ob) (c : Call) : Reliable (ob.step c) ↔ Fresh ob c := by
  constructor
  · intro hrel
    cases c with
    | add ord => exact fun hrests => h.not_reliable_addOrder hrests hrel
    | cancel id => trivial
    | matchWith incoming tsNs => trivial
  · exact fun hc => (h.step hc).reliable

end Indexed

/-- **Cancels are reliable in every state of a run** exactly when no order of the run is added under
an id that rests. -/
theorem cancels_reliable_iff (symbol : Symbol) (calls : List Call) :
    Reliable { symbol_ := symbol } ∧
        Run.Along step (fun ob c => Reliable (ob.step c)) { symbol_ := symbol } calls ↔
      Run.Along step Fresh { symbol_ := symbol } calls := by
  rw [and_iff_right (indexed_create symbol).reliable]
  exact Run.along_congr (fun _ c h => h.reliable_step_iff c) (fun _ _ h hc => h.step hc)
    (indexed_create symbol)

/-- Two bids with one id. -/
def twins : List Call :=
  let bid : BookOrder :=
    { id := 1, trader := 1, qty := 5, price := 10, side := .buy, type := .limit, tsNs := 0 }
  [.add bid, .add { bid with price := 9 }]

/-- **A second order under an id that rests**: a cancel returns true and leaves the older order, which
no cancel finds any more. -/
theorem twin_not_canceled :
    let ob := twins.foldl step { symbol_ := {} }
    let ob' := (ob.cancelOrder 1).2
    (ob.cancelOrder 1).1 = true ∧ ob'.Rests 1 ∧ (ob'.cancelOrder 1).1 = false ∧ ¬ Reliable ob := by
  have hfound : ((twins.foldl step { symbol_ := {} }).cancelOrder 1).1 = true := by decide
  have hrests : ((twins.foldl step { symbol_ := {} }).cancelOrder 1).2.Rests 1 :=
    ⟨.buy, by decide⟩
  exact ⟨hfound, hrests, by decide, fun h => h.gone 1 hfound hrests⟩

end OrderBook

end HftSdk
