import HftSdk.Market.CancelRouting
import Mathlib.Algebra.BigOperators.Group.Finset.Basic
import Mathlib.Algebra.Order.BigOperators.Group.Finset
import Mathlib.Algebra.GroupWithZero.Nat

/-!
# Live routes

The order index is there to send cancels to their books. An id is entered when its order is neither
rejected nor filled, also when nothing of the order rests, and it is forgotten by a cancel only, not
when the order is filled by a later one or by its own replacement. `along_live_iff` says along which
sessions every entry is that of a resting order, and `MachineEngine.session_live_iff` says it of the
sessions of the code's 64-bit integers.
-/

namespace HftSdk

open Sweep

/-! ## Which orders rest after a submission -/

namespace Ladder

variable {L : Ladder}

/-- The quotes that an order uses up: consecutive ones that it may trade with, as far as what it asks
for covers them whole. -/
def usesUp (L : Ladder) (o : Order) : List Quote :=
  covered Quote.openQty (L.demand o) (tradable o (L.side o.side.opp))

theorem Inv.usedUp_fillsOf (h : L.Inv) (o : Order) : usedUp (L.fillsOf o) = L.usesUp o := by
  have hfull : ∀ x : Quote × Int, (x.1.fill x.2).openQty = 0 ↔ x.2 = x.1.openQty := by
    intro x
    rw [Quote.fill_openQty]
    omega
  unfold usedUp usesUp fillsOf
  simp only [hfull]
  exact map_fst_full_fills Quote.openQty (h.tradable_pos o) (L.demand o)

theorem Inv.has_afterMatch_iff (h : L.Inv) (o : Order) (id : OrderId) : (L.afterMatch o).Has id ↔
    L.Has id ∧ id ∉ (L.usesUp o).map fun q => q.order.id := by
  have hids : ∀ l : List Quote, (l.map Quote.frame).map (fun q => q.order.id) =
      l.map fun q => q.order.id := fun l => by rw [List.map_map]; rfl
  have hsplit := congrArg (List.map fun q : Quote => q.order.id) (h.afterMatch_frame o)
  rw [hids, hids, h.usedUp_fillsOf, List.map_append] at hsplit
  have hnodup := ((L.all_perm o.side).map fun q => q.order.id).nodup_iff.mp h.ids
  rw [List.map_append, ← hsplit, ← List.append_assoc, List.nodup_append, List.nodup_append] at hnodup
  have hmem : ∀ L' : Ladder, L'.Has id ↔ id ∈ (L'.side o.side).map (fun q => q.order.id) ∨
      id ∈ (L'.side o.side.opp).map fun q => q.order.id := by
    intro L'
    have hperm := ((L'.all_perm o.side).map fun q => q.order.id).mem_iff (a := id)
    rw [List.map_append, List.mem_append] at hperm
    rw [← hperm, List.mem_map]
    rfl
  have hown : (L.afterMatch o).side o.side = L.side o.side := set_opp_side _ _ _
  rw [hmem, hmem, hown, ← hsplit, List.mem_append]
  obtain ⟨⟨-, -, hused⟩, -, hleft⟩ := hnodup
  constructor
  · rintro (hid | hid)
    · exact ⟨Or.inl hid, fun hu => hused _ hid _ hu rfl⟩
    · exact ⟨Or.inr (Or.inr hid), fun hu =>
        hleft _ (List.mem_append_right _ hu) _ hid rfl⟩
  · rintro ⟨hid | hid | hid, hnot⟩
    · exact Or.inl hid
    · exact absurd hid hnot
    · exact Or.inr hid

theorem Inv.not_mem_usesUp (h : L.Inv) {q : Quote} (hq : q ∈ L.all) {o : Order}
    (hside : o.side = q.order.side) : q.order.id ∉ (L.usesUp o).map fun q => q.order.id := by
  have hown : q ∈ (L.afterMatch o).side o.side := by
    rw [Ladder.afterMatch, set_opp_side, hside]
    exact h.side_eq hq
  exact ((h.has_afterMatch_iff o _).mp ⟨q, mem_all.mpr ⟨_, hown⟩, rfl⟩).2

theorem Inv.has_add_iff (h : L.Inv) {o : Order} (hid : ¬ L.Has o.id) (ts : Timestamp)
    (id : OrderId) : (L.add o ts).Has id ↔
      L.Has id ∧ id ∉ (L.usesUp o).map (fun q => q.order.id) ∨ id = o.id ∧ L.Rests o := by
  rw [← h.has_afterMatch_iff, Ladder.add, if_neg hid]
  split_ifs with hrests
  · have hmem := fun q => (rest_perm (L.afterMatch o) o (L.remainder o) ts).mem_iff (a := q)
    unfold Has
    simp only [hmem, List.mem_cons, exists_eq_or_imp, hrests, and_true]
    rw [or_comm, eq_comm]
    rfl
  · simp [hrests]

end Ladder

namespace L3OrderBook

variable {b : L3OrderBook}

/-- The ids of the orders that an order uses up. -/
def usesUp (b : L3OrderBook) (o : Order) : List OrderId := (b.ladder.usesUp o).map fun q => q.order.id

/-- The order asks for more than it may trade against, and rests with what is left. -/
def RestsOn (b : L3OrderBook) (o : Order) : Prop :=
  b.tradableQty o < o.quantity ∧ o.type = .limit ∧ (o.tif = .day ∨ o.tif = .gtc)

instance (b : L3OrderBook) (o : Order) : Decidable (b.RestsOn o) :=
  inferInstanceAs (Decidable (_ ∧ _ ∧ (_ ∨ _)))

theorem RepInv.restsOn_iff (h : b.RepInv) (o : Order) : b.RestsOn o ↔ b.ladder.Rests o := by
  rw [RestsOn, Ladder.Rests, tradableQty_eq, h.inv.remainder_pos_iff]

theorem RepInv.mem_index_add_iff (h : b.RepInv) {o : Order} (hid : o.id ∉ b.orderIndex)
    (ts : Timestamp) (id : OrderId) : id ∈ (b.addOrder o ts).book.orderIndex ↔
      id ∈ b.orderIndex ∧ id ∉ b.usesUp o ∨ id = o.id ∧ b.RestsOn o := by
  have hr := h.addOrder o ts
  rw [h.mem_index] at hid
  rw [hr.repInv.mem_index, hr.ladder, h.inv.has_add_iff hid, h.mem_index, h.restsOn_iff]
  rfl

theorem RepInv.usesUp_cancel (h : b.RepInv) {q : Quote} (hq : q ∈ b.ladder.all) {o : Order}
    (hside : o.side = q.order.side) (ts : Timestamp) :
    (b.cancelOrder q.order.id ts).book.usesUp o = b.usesUp o ∧
      ((b.cancelOrder q.order.id ts).book.RestsOn o ↔ b.RestsOn o) := by
  have hc := h.cancelOrder {} q.order.id ts
  have hliquidity := h.inv.liquidity_cancel hq hside
  have hopp : (b.ladder.cancel q.order.id).side o.side.opp = b.ladder.side o.side.opp := by
    rw [hside, h.inv.cancel_side_opp hq]
  constructor
  · unfold L3OrderBook.usesUp Ladder.usesUp Ladder.demand
    rw [hc.ladder, hliquidity, hopp]
  · rw [RestsOn, RestsOn, tradableQty_eq, tradableQty_eq, hc.ladder, hliquidity]

theorem RepInv.mem_index_replace_iff (h : b.RepInv) {req : ReplaceRequest} {loc : OrderLocation}
    (hloc : b.orderIndex.lookup req.orderId = some loc) (ts : Timestamp) (id : OrderId) :
    id ∈ (b.replaceOrder req ts).book.orderIndex ↔
      (id ∈ b.orderIndex ∧ id ≠ req.orderId) ∧ id ∉ b.usesUp (replacement req loc.side ts) ∨
        id = req.orderId ∧ b.RestsOn (replacement req loc.side ts) := by
  obtain ⟨q, hq, hqid, hside⟩ := h.exists_of_lookup hloc
  have hc := h.cancelOrder {} q.order.id ts
  obtain ⟨huses, hrests⟩ := h.usesUp_cancel hq (o := replacement req q.order.side ts) rfl ts
  have hnot : (replacement req q.order.side ts).id ∉ (b.cancelOrder q.order.id ts).book.orderIndex := by
    rw [hc.repInv.mem_index, hc.ladder]
    exact hqid ▸ Ladder.not_has_cancel _ _
  rw [(h.replaceOrder_eq hq hqid ts).1, ← hqid, hc.repInv.mem_index_add_iff hnot, huses, hrests,
    mem_index_cancel, hside, hqid]
  rfl

end L3OrderBook

/-! ## Live entries -/

namespace MatchingEngine

/-- Every entry of the index is that of an order that rests in the book it names. -/
def Live (e : MatchingEngine) : Prop :=
  ∀ id s, e.orderSymbolIndex.lookup id = some s → ∃ b, e.book s = some b ∧ b.HasOrder id

/-- How many orders rest. -/
def restingOrders (e : MatchingEngine) : ℕ :=
  ∑ s ∈ e.symbols.keys, ((e.book s).map fun b => b.nodes.length).getD 0

theorem Live.card_le {e : MatchingEngine} (h : e.Live) :
    e.orderSymbolIndex.keys.card ≤ e.restingOrders := by
  let ids (s : Symbol) : Finset OrderId :=
    (((e.book s).map fun b => b.nodes.map fun n => n.val.id).getD []).toFinset
  have hcover : e.orderSymbolIndex.keys ⊆ e.symbols.keys.biUnion ids := by
    intro id hid
    obtain ⟨s, hl⟩ := Finmap.mem_iff.mp (Finmap.mem_keys.mp hid)
    obtain ⟨b, hb, n, hn, rfl⟩ := h id s hl
    obtain ⟨state, hs, -⟩ := book_eq_some.mp hb
    apply Finset.mem_biUnion.mpr
    refine ⟨s, Finmap.mem_keys.mpr (Finmap.mem_of_lookup_eq_some hs), ?_⟩
    simp only [ids, hb, Option.map_some, Option.getD_some, List.mem_toFinset]
    exact List.mem_map_of_mem hn
  have hids : ∀ s, (ids s).card ≤ ((e.book s).map fun b => b.nodes.length).getD 0 := by
    intro s
    apply (List.toFinset_card_le _).trans_eq
    cases e.book s with
    | none => rfl
    | some b => exact List.length_map _
  calc e.orderSymbolIndex.keys.card
      ≤ (e.symbols.keys.biUnion ids).card := Finset.card_le_card hcover
    _ ≤ ∑ s ∈ e.symbols.keys, (ids s).card := Finset.card_biUnion_le
    _ ≤ e.restingOrders := Finset.sum_le_sum fun s _ => hids s

/-- `Live`, by the indexes of the books. -/
def LiveIndex (e : MatchingEngine) : Prop :=
  ∀ id s, e.orderSymbolIndex.lookup id = some s → ∃ b, e.book s = some b ∧ id ∈ b.orderIndex

theorem BooksReachable.live_iff {e : MatchingEngine} (h : e.BooksReachable) :
    e.Live ↔ e.LiveIndex := by
  constructor
  · intro hlive id s hl
    obtain ⟨b, hb, hid⟩ := hlive id s hl
    exact ⟨b, hb, (h.hasOrder_iff hb id).mp hid⟩
  · intro hlive id s hl
    obtain ⟨b, hb, hid⟩ := hlive id s hl
    exact ⟨b, hb, (h.hasOrder_iff hb id).mpr hid⟩

/-- A call keeps the entries live: a new order that is entered rests, an order that the index sends
here rests again when it is replaced, and neither a new order nor a replacement uses up an order that
the index sends here. -/
def KeepsLive (e : MatchingEngine) : EngineOp → Prop
  | .newOrder order _ _ =>
    ∀ b, e.book order.symbol = some b → (e.checkRisk order).1 = .none →
      order.id ∈ b.orderIndex ∨ (b.LeavesNoTrack order ∨ b.RestsOn order) ∧
        ∀ id ∈ b.usesUp order, e.orderSymbolIndex.lookup id ≠ some order.symbol
  | .replace req ts _ =>
    ∀ b loc, e.book req.symbol = some b → b.orderIndex.lookup req.orderId = some loc →
      let order := L3OrderBook.replacement req loc.side ts
      (e.orderSymbolIndex.lookup req.orderId = some req.symbol → b.RestsOn order) ∧
        ∀ id ∈ b.usesUp order, e.orderSymbolIndex.lookup id ≠ some req.symbol
  | _ => True

-- the ids of a list are looked at one by one, as `OrderId` is a finite type, too
instance (e : MatchingEngine) (s : Symbol) (ids : List OrderId) :
    Decidable (∀ id ∈ ids, e.orderSymbolIndex.lookup id ≠ some s) :=
  List.decidableBAll _ _

instance (e : MatchingEngine) : ∀ op, Decidable (e.KeepsLive op)
  | .newOrder order _ _ =>
    inferInstanceAs (Decidable (∀ b ∈ e.book order.symbol, (e.checkRisk order).1 = .none → _))
  | .replace req ts _ =>
    decidable_of_iff (∀ b ∈ e.book req.symbol, ∀ loc ∈ b.orderIndex.lookup req.orderId,
      let order := L3OrderBook.replacement req loc.side ts
      (e.orderSymbolIndex.lookup req.orderId = some req.symbol → b.RestsOn order) ∧
        ∀ id ∈ b.usesUp order, e.orderSymbolIndex.lookup id ≠ some req.symbol)
      ⟨fun h b loc hb => h b hb loc, fun h b hb loc => h b loc hb⟩
  | .addSymbol _ | .cancel .. | .killTrader _ | .killAll | .unkillTrader _ | .unkillAll =>
    isTrue trivial

section Step
variable {e : MatchingEngine} (h : e.LiveIndex) (hbooks : e.BooksReachable)
include h

theorem LiveIndex.of_dispatch_none {op : EngineOp} (hd : e.dispatch op = none) :
    (e.step op).LiveIndex := by
  intro id s hl
  rw [(symbols_of_dispatch_none hd).1] at hl
  obtain ⟨b, hb, hid⟩ := h id s hl
  rcases (dispatch_none hd).2 s with hsame | ⟨hnone, -⟩
  · exact ⟨b, hsame.trans hb, hid⟩
  · rw [hb] at hnone
    cases hnone

theorem LiveIndex.dispatch_iff {op : EngineOp} {c : BookCall} (hd : e.dispatch op = some c)
    (hothers : ∀ id s, s ≠ c.symbol → (e.indexAfter c).lookup id = some s →
      e.orderSymbolIndex.lookup id = some s) :
    (e.step op).LiveIndex ↔ ∀ id, (e.indexAfter c).lookup id = some c.symbol →
      id ∈ (c.book.step c.op).book.orderIndex := by
  have hhere : (e.step op).book c.symbol = some (c.book.step c.op).book := by
    rw [(dispatch_some hd).books, if_pos rfl]
  unfold LiveIndex
  rw [index_of_dispatch hd]
  constructor
  · intro hlive id hl
    obtain ⟨b, hb, hid⟩ := hlive id c.symbol hl
    rwa [← Option.some_inj.mp (hhere.symm.trans hb)] at hid
  · intro hcall id s hl
    by_cases hs : s = c.symbol
    · subst hs
      exact ⟨_, hhere, hcall id hl⟩
    · obtain ⟨b, hb, hid⟩ := h id s (hothers id s hs hl)
      exact ⟨b, by rw [(dispatch_some hd).books, if_neg hs, hb], hid⟩

theorem LiveIndex.mem {id : OrderId} {s : Symbol} {b : L3OrderBook}
    (hl : e.orderSymbolIndex.lookup id = some s) (hb : e.book s = some b) : id ∈ b.orderIndex := by
  obtain ⟨b', hb', hid⟩ := h id s hl
  rwa [Option.some_inj.mp (hb'.symm.trans hb)] at hid

include hbooks

theorem LiveIndex.newOrder_iff {order : Order} {ts publishedAt : Timestamp} {b : L3OrderBook}
    (hb : e.book order.symbol = some b)
    (hd : e.dispatch (.newOrder order ts publishedAt) = some ⟨order.symbol, b, .add order ts⟩) :
    (e.step (.newOrder order ts publishedAt)).LiveIndex ↔
      order.id ∈ b.orderIndex ∨ (b.LeavesNoTrack order ∨ b.RestsOn order) ∧
        ∀ id ∈ b.usesUp order, e.orderSymbolIndex.lookup id ≠ some order.symbol := by
  have hrep := hbooks.repInv hb
  have htracked := hrep.tracked_iff order ts
  have hindex := e.indexAfter_add order.symbol b order ts
  have hstep := h.dispatch_iff hd (by
    intro id s hs hl
    rw [hindex] at hl
    split_ifs at hl
    · by_cases hid : id = order.id
      · rw [hid, Finmap.lookup_insert] at hl
        exact absurd (Option.some_inj.mp hl).symm hs
      · rwa [Finmap.lookup_insert_of_ne _ hid] at hl
    · exact hl)
  rw [hstep, hindex]
  by_cases hdup : order.id ∈ b.orderIndex
  · refine iff_of_true (fun id hl => ?_) (Or.inl hdup)
    rw [if_neg fun hc => htracked.mp hc (Or.inl hdup)] at hl
    change id ∈ (b.addOrder order ts).book.orderIndex
    rw [hrep.addOrder_of_has ((hrep.mem_index _).mp hdup)]
    exact h.mem hl hb
  · have hfresh : ∀ id, e.orderSymbolIndex.lookup id = some order.symbol → id ≠ order.id :=
      fun id hl hid => hdup (hid ▸ h.mem hl hb)
    have hmem := hrep.mem_index_add_iff hdup ts
    -- an entry from before stays live unless its order is used up
    have hold : ∀ id, e.orderSymbolIndex.lookup id = some order.symbol →
        (id ∈ (b.addOrder order ts).book.orderIndex ↔ id ∉ b.usesUp order) := by
      intro id hl
      rw [hmem]
      simp only [h.mem hl hb, hfresh id hl, true_and, false_and, or_false]
    have hnew : order.id ∈ (b.addOrder order ts).book.orderIndex ↔ b.RestsOn order := by
      rw [hmem]
      simp only [hdup, false_and, true_and, false_or]
    rw [or_iff_right hdup]
    by_cases htrack : Tracked (b.addOrder order ts).rpt
    · rw [if_pos htrack, or_iff_right (htracked.mp htrack), ← hnew]
      constructor
      · intro hcall
        refine ⟨hcall order.id (Finmap.lookup_insert _), fun id huses hl => ?_⟩
        refine (hold id hl).mp (hcall id ?_) huses
        rwa [Finmap.lookup_insert_of_ne _ (hfresh id hl)]
      · rintro ⟨hrests, huses⟩ id hl
        by_cases hid : id = order.id
        · exact hid ▸ hrests
        · rw [Finmap.lookup_insert_of_ne _ hid] at hl
          exact (hold id hl).mpr fun hu => huses id hu hl
    · rw [if_neg htrack]
      have hleaves : b.LeavesNoTrack order := of_not_not fun hc => htrack (htracked.mpr hc)
      constructor
      · exact fun hcall => ⟨Or.inl hleaves, fun id huses hl => (hold id hl).mp (hcall id hl) huses⟩
      · exact fun hkeep id hl => (hold id hl).mpr fun hu => hkeep.2 id hu hl

theorem LiveIndex.cancel {req : CancelRequest} {ts publishedAt : Timestamp} {symbol : Symbol}
    {b : L3OrderBook} (hb : e.book symbol = some b)
    (hd : e.dispatch (.cancel req ts publishedAt) = some ⟨symbol, b, .cancel req.orderId ts⟩) :
    (e.step (.cancel req ts publishedAt)).LiveIndex := by
  have hrep := hbooks.repInv hb
  have hindex := e.indexAfter_cancel symbol b req.orderId ts
  have hlookup : ∀ id s, (e.indexAfter ⟨symbol, b, .cancel req.orderId ts⟩).lookup id = some s →
      e.orderSymbolIndex.lookup id = some s := by
    intro id s hl
    rw [hindex] at hl
    split_ifs at hl
    · by_cases hid : id = req.orderId
      · rw [hid, Finmap.lookup_erase] at hl
        cases hl
      · rwa [Finmap.lookup_erase_ne hid] at hl
    · exact hl
  rw [h.dispatch_iff hd fun id s _ => hlookup id s]
  intro id hl
  have hid := h.mem (hlookup id symbol hl) hb
  refine (b.mem_index_cancel _ _ _).mpr ⟨hid, ?_⟩
  rintro rfl
  -- an order that rests is canceled, and its entry goes with it
  obtain ⟨q, hq, hqid⟩ := (hrep.mem_index _).mp hid
  have hstatus : (b.cancelOrder req.orderId ts).rpt.status = .canceled := by
    rw [← hqid, hrep.cancelOrder_eq hq ts]
    rfl
  rw [hindex, if_pos hstatus, Finmap.lookup_erase] at hl
  cases hl

theorem LiveIndex.replace_iff {req : ReplaceRequest} {ts publishedAt : Timestamp} {b : L3OrderBook}
    (hb : e.book req.symbol = some b)
    (hd : e.dispatch (.replace req ts publishedAt) = some ⟨req.symbol, b, .replace req ts⟩) :
    (e.step (.replace req ts publishedAt)).LiveIndex ↔
      ∀ loc, b.orderIndex.lookup req.orderId = some loc →
        (e.orderSymbolIndex.lookup req.orderId = some req.symbol →
          b.RestsOn (L3OrderBook.replacement req loc.side ts)) ∧
        ∀ id ∈ b.usesUp (L3OrderBook.replacement req loc.side ts),
          e.orderSymbolIndex.lookup id ≠ some req.symbol := by
  have hrep := hbooks.repInv hb
  have hindex : e.indexAfter ⟨req.symbol, b, .replace req ts⟩ = e.orderSymbolIndex := rfl
  rw [h.dispatch_iff hd fun id s _ hl => hl, hindex]
  change (∀ id, _ → id ∈ (b.replaceOrder req ts).book.orderIndex) ↔ _
  cases hloc : b.orderIndex.lookup req.orderId with
  | none =>
    rw [hrep.replaceOrder_of_not_has (hrep.not_has_of_lookup hloc)]
    exact iff_of_true (fun id hl => h.mem hl hb) nofun
  | some loc =>
    obtain ⟨q, hq, hqid, hside⟩ := hrep.exists_of_lookup hloc
    have hmem := hrep.mem_index_replace_iff hloc ts
    have hown : req.orderId ∉ b.usesUp (L3OrderBook.replacement req loc.side ts) :=
      hqid ▸ hrep.inv.not_mem_usesUp hq hside.symm
    constructor
    · rintro hcall loc' hloc'
      obtain rfl := Option.some_inj.mp hloc'
      constructor
      · intro hl
        exact (((hmem _).mp (hcall _ hl)).resolve_left fun hc => hc.1.2 rfl).2
      · intro id huses hl
        rcases (hmem id).mp (hcall id hl) with hc | hc
        · exact hc.2 huses
        · exact hown (hc.1 ▸ huses)
    · intro hkeep id hl
      obtain ⟨hrests, huses⟩ := hkeep loc rfl
      refine (hmem id).mpr ?_
      by_cases hid : id = req.orderId
      · exact Or.inr ⟨hid, hrests (hid ▸ hl)⟩
      · exact Or.inl ⟨⟨h.mem hl hb, hid⟩, fun hu => huses id hu hl⟩

theorem LiveIndex.step_iff (op : EngineOp) : (e.step op).LiveIndex ↔ e.KeepsLive op := by
  cases hd : e.dispatch op with
  | none =>
    apply iff_of_true (h.of_dispatch_none hd)
    cases op with
    | newOrder order ts publishedAt =>
      intro b hb hok
      exact absurd (.newOrder hb hok) (not_reaches hd _)
    | replace req ts publishedAt =>
      intro b loc hb
      exact absurd (.replace hb) (not_reaches hd _)
    | _ => trivial
  | some c =>
    cases reaches_of_dispatch hd with
    | newOrder hb hok =>
      rw [h.newOrder_iff hbooks hb hd, KeepsLive, forall_book_iff hb, forall_prop_of_true hok]
    | cancel _ hb => exact iff_of_true (h.cancel hbooks hb hd) trivial
    | replace hb =>
      rw [h.replace_iff hbooks hb hd]
      constructor
      · rintro hkeep b' loc hb'
        obtain rfl := Option.some_inj.mp (hb.symm.trans hb')
        exact hkeep loc
      · intro hkeep loc
        exact hkeep _ loc hb

end Step

/-! ## Sessions -/

/-- Along a session every entry is that of a resting order exactly when every call keeps the entries
live, and then there are no more entries than resting orders. -/
theorem along_live_iff (calls : List SessionCall) :
    (Run.Along stepCall (fun e call => (e.stepCall call).Live) {} calls ↔
      Run.Along stepCall (fun e call => (e.withRisk call.risk).KeepsLive call.op) {} calls) ∧
    (Run.Along stepCall (fun e call => (e.withRisk call.risk).KeepsLive call.op) {} calls →
      Run.Along stepCall (fun e call =>
        (e.stepCall call).orderSymbolIndex.keys.card ≤ (e.stepCall call).restingOrders) {} calls) := by
  have hlive := along_stepCall_iff (P := Live) (J := LiveIndex) (C := KeepsLive)
    (fun _ h => h.live_iff) (fun _ _ h => h) (fun _ hbooks h op => h.step_iff hbooks op)
    (fun _ _ h => absurd h nofun) calls
  exact ⟨hlive, fun hkeep => (hlive.mpr hkeep).mono fun e call h => h.card_le⟩

/-- A bid rests, and then a sell fills it. -/
def filledResting : List SessionCall :=
  let order (id : OrderId) (side : Side) : EngineOp :=
    .newOrder { id, symbol := ⟨.replicate 8 65⟩, side, price := 10, quantity := 5 } 0 0
  [.addSymbol ⟨.replicate 8 65⟩, order 1 .buy, order 2 .sell].map (SessionCall.mk none)

end MatchingEngine

/-! ## On 64-bit integers -/

namespace MachineEngine

/-- **When the index holds live orders only**: along a session in the range every entry is that of a
resting order exactly when every call keeps the entries live, and then there are no more entries than
resting orders. -/
theorem session_live_iff (calls : List SessionCall)
    (hrange : Run.Along stepCall CallInRange {} calls) :
    (Run.Along stepCall (fun e call => (stepCall e call).Live) {} calls ↔
      Run.Along stepCall (fun e call => (e.withRisk call.risk).KeepsLive call.op) {} calls) ∧
    (Run.Along stepCall (fun e call => (e.withRisk call.risk).KeepsLive call.op) {} calls →
      Run.Along stepCall (fun e call =>
        (stepCall e call).orderSymbolIndex.keys.card ≤ (stepCall e call).restingOrders) {} calls) := by
  rw [along_state_iff hrange MatchingEngine.Live,
    along_state_iff hrange fun e => e.orderSymbolIndex.keys.card ≤ e.restingOrders,
    along_condition_iff hrange]
  exact MatchingEngine.along_live_iff calls

/-- An ask that rests, an order that is filled in part by it at once, and the replacement of the ask
by one for more. -/
theorem session_live_iff_replace :
    let symbol : Symbol := ⟨.replicate 8 65⟩
    let calls := sessionOf (.start {}) [.addSymbol symbol,
      .newOrder { id := 1, symbol, side := .sell, price := 10, quantity := 5 } 0 0,
      .newOrder { id := 2, symbol, price := 10, quantity := 3 } 1 1,
      .replace { orderId := 1, symbol, newPrice := 11, newQty := 8 } 2 2]
    Run.Along stepCall (fun e call => (stepCall e call).Live) {} calls ∧
      Run.Along stepCall (fun e call =>
        (stepCall e call).orderSymbolIndex.keys.card ≤ (stepCall e call).restingOrders) {} calls :=
  ⟨(session_live_iff _ (by decide)).1.mpr (by decide),
    (session_live_iff _ (by decide)).2 (by decide)⟩

/-- The filled bid keeps its entry, with nothing resting in any book. -/
theorem session_keeps_stale_entry : ¬ (session MatchingEngine.filledResting).Live ∧
    (session MatchingEngine.filledResting).restingOrders <
      (session MatchingEngine.filledResting).orderSymbolIndex.keys.card := by
  have hcount : (session MatchingEngine.filledResting).restingOrders <
      (session MatchingEngine.filledResting).orderSymbolIndex.keys.card := by decide
  exact ⟨fun hlive => absurd hlive.card_le (not_le.mpr hcount), hcount⟩

end MachineEngine

end HftSdk
