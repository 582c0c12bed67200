import HftSdk.Orderbook.Ladder
import HftSdk.Lib.Index

/-!
# The book refines the abstract book

`L3OrderBook.ladder` reads a book as a `Ladder`. The four structures that the code keeps by hand are
tied to it by `RepInv`: no level is empty, and the index and the two counters describe exactly the
quotes. Every operation of the book is the same operation of the ladder and keeps `RepInv`
(`RepInv.step`).
-/

namespace HftSdk

open Sweep SortedMap PriorityList

/-! ## The book as a ladder -/

/-- What the index holds for a quote. -/
def Quote.entry (q : Quote) : OrderId × OrderLocation := (q.order.id, ⟨q.order.side, q.price, q.addr⟩)

/-- The number of orders the code counts on a side. -/
def BookCore.orderCount (c : BookCore) : Side → Nat
  | .buy => c.bidOrderCount
  | .sell => c.askOrderCount

/-- The index and the counters describe these quotes. -/
structure BookCore.Tracks (c : BookCore) (l : List Quote) : Prop where
  index : Indexes c.orderIndex (l.map Quote.entry)
  count : ∀ s, c.orderCount s = l.countP fun q => q.order.side = s

namespace L3OrderBook

def levels (b : L3OrderBook) : (s : Side) → PriceLevels s
  | .buy => b.bids
  | .sell => b.asks

/-- The book as an abstract book. -/
def ladder (b : L3OrderBook) : Ladder := ⟨fun s => quotes (b.levels s).entries, b.nextAddr⟩

/-- The representation invariant. -/
structure RepInv (b : L3OrderBook) : Prop where
  inv : b.ladder.Inv
  nonempty : ∀ s, ∀ e ∈ (b.levels s).entries, e.2 ≠ []
  tracks : b.Tracks b.ladder.all

/-- Replace the levels of a side. -/
def setLevels (b : L3OrderBook) (s : Side) (m : PriceLevels s) : L3OrderBook :=
  match s, m with
  | .buy, m => { b with bids := m }
  | .sell, m => { b with asks := m }

theorem setLevels_ladder (b : L3OrderBook) (c : BookCore) (s : Side) (m : PriceLevels s) :
    ({ b.setLevels s m with toBookCore := c } : L3OrderBook).ladder =
      { b.ladder.set s (quotes m.entries) with stamp := c.nextAddr } := by
  unfold ladder Ladder.set
  congr 1
  funext t
  cases s <;> cases t <;> rfl

theorem setLevels_nonempty {b : L3OrderBook} (h : ∀ s, ∀ e ∈ (b.levels s).entries, e.2 ≠ [])
    (c : BookCore) {s : Side} {m : PriceLevels s} (hm : ∀ e ∈ m.entries, e.2 ≠ []) (t : Side) :
    ∀ e ∈ (({ b.setLevels s m with toBookCore := c } : L3OrderBook).levels t).entries, e.2 ≠ [] := by
  cases s <;> cases t
  · exact hm
  · exact h .sell
  · exact h .buy
  · exact hm

theorem create_ladder (symbol : Symbol) : (create symbol).ladder = Ladder.empty := by
  unfold ladder Ladder.empty
  congr 1
  funext s
  cases s <;> rfl

theorem repInv_create (symbol : Symbol) : (create symbol).RepInv where
  inv := create_ladder symbol ▸ Ladder.inv_empty
  nonempty s e he := by cases s <;> exact absurd he List.not_mem_nil
  tracks := ⟨Indexes.empty, fun s => by cases s <;> rfl⟩

theorem RepInv.mem_index {b : L3OrderBook} (h : b.RepInv) (id : OrderId) :
    id ∈ b.orderIndex ↔ b.ladder.Has id := by
  rw [h.tracks.index.mem_iff, List.map_map, List.mem_map]
  rfl

theorem RepInv.not_has_of_lookup {b : L3OrderBook} (h : b.RepInv) {id : OrderId}
    (hl : b.orderIndex.lookup id = none) : ¬ b.ladder.Has id := by
  rw [← h.mem_index]
  exact Finmap.lookup_eq_none.mp hl

end L3OrderBook

/-! ## Fills and the rest of the book -/

/-- The quotes that a list of fills uses up. -/
def usedUp (fs : List (Quote × Int)) : List Quote :=
  (fs.filter fun x => (x.1.fill x.2).openQty = 0).map Prod.fst

theorem usedUp_cons (q : Quote) (m : Int) (fs : List (Quote × Int)) :
    usedUp ((q, m) :: fs) = if m = q.openQty then q :: usedUp fs else usedUp fs := by
  have : (q.fill m).openQty = 0 ↔ m = q.openQty := by
    rw [Quote.fill_openQty]
    omega
  simp only [usedUp, List.filter_cons, this, decide_eq_true_eq]
  split_ifs <;> rfl

theorem usedUp_append (fs fs' : List (Quote × Int)) : usedUp (fs ++ fs') = usedUp fs ++ usedUp fs' := by
  simp [usedUp]

theorem usedUp_full (done : List Quote) : usedUp (done.map fun q => (q, q.openQty)) = done := by
  induction done with
  | nil => rfl
  | cons q done ih => rw [List.map_cons, usedUp_cons, if_pos rfl, ih]

namespace BookCore

@[simp] theorem recordTrade_orderCount (c : BookCore) (p m : Int) (s : Side) :
    (c.recordTrade p m).orderCount s = c.orderCount s := by cases s <;> rfl

@[simp] theorem dropFilled_orderIndex (c : BookCore) (o : L3Order) :
    (c.dropFilled o).orderIndex = c.orderIndex.erase o.id := by
  unfold dropFilled
  cases o.side <;> rfl

theorem dropFilled_orderCount (c : BookCore) (o : L3Order) (s : Side) :
    (c.dropFilled o).orderCount s = if o.side = s then c.orderCount s - 1 else c.orderCount s := by
  unfold dropFilled
  cases o.side <;> cases s <;> rfl

theorem Tracks.dropFilled {c : BookCore} {q : Quote} {l : List Quote} (h : c.Tracks (q :: l)) :
    (c.dropFilled q.order).Tracks l := by
  constructor
  · rw [dropFilled_orderIndex]
    exact h.index.erase
  · intro s
    rw [dropFilled_orderCount, h.count, List.countP_cons]
    by_cases hs : q.order.side = s <;> simp [hs]

theorem Tracks.recordTrade {c : BookCore} {l : List Quote} (h : c.Tracks l) (p m : Int) :
    (c.recordTrade p m).Tracks l := ⟨h.index, fun s => by rw [recordTrade_orderCount, h.count]⟩

theorem Tracks.perm {c : BookCore} {l l' : List Quote} (h : c.Tracks l) (hp : l.Perm l') :
    c.Tracks l' :=
  ⟨h.index.perm (hp.map _), fun s => (h.count s).trans (hp.countP_eq _)⟩

theorem Tracks.of_frame {c : BookCore} {l l' : List Quote} (h : c.Tracks l)
    (hf : l.map Quote.frame = l'.map Quote.frame) : c.Tracks l' := by
  have hentry : ∀ k : List Quote, k.map Quote.entry = (k.map Quote.frame).map Quote.entry :=
    fun k => by
      rw [List.map_map]
      rfl
  have hside : ∀ (k : List Quote) (s : Side), k.countP (fun q => q.order.side = s) =
      (k.map Quote.frame).countP fun q => q.order.side = s := by
    intro k s
    rw [List.countP_map]
    rfl
  constructor
  · rw [hentry, ← hf, ← hentry]
    exact h.index
  · intro s
    rw [hside, ← hf, ← hside]
    exact h.count s

theorem Tracks.settle {c : BookCore} {fs : List (Quote × Int)} {l : List Quote}
    (h : c.Tracks (usedUp fs ++ l)) : (c.settle fs).Tracks l := by
  induction fs generalizing c with
  | nil => exact h
  | cons x fs ih =>
    obtain ⟨q, m⟩ := x
    rw [settle_cons]
    apply ih
    unfold settleOne
    split_ifs with hq
    · have h' : c.Tracks (q :: (usedUp fs ++ l)) := by simpa [usedUp, hq] using h
      exact (h'.recordTrade _ _).dropFilled
    · simpa [usedUp, hq] using h.recordTrade q.price m

end BookCore

namespace Ladder

theorem Inv.afterMatch_frame {L : Ladder} (h : L.Inv) (o : Order) :
    (usedUp (L.fillsOf o) ++ (L.afterMatch o).side o.side.opp).map Quote.frame =
      (L.side o.side.opp).map Quote.frame := by
  have hpos := h.tradable_pos o
  rw [Ladder.afterMatch, set_side, fillsOf]
  conv_rhs => rw [← h.tradable_append o]
  rw [← List.append_assoc, List.map_append]
  refine Eq.trans ?_ List.map_append.symm
  congr 1
  by_cases hd : 0 ≤ L.demand o
  · cases sweep Quote.fill_openQty hpos hd with
    | clean done hl hfs hle hstop => rw [hfs, usedUp_full, ← hl]
    | part done q tail hl hlo hhi hfs hrs =>
      rw [hfs, hrs, usedUp_append, usedUp_full, usedUp_cons, if_neg (by omega), hl]
      simp [usedUp, Quote.fill_frame]
  · rw [fills_of_nonpos _ (by omega), residue_of_nonpos _ _ (by omega)]
    rfl

end Ladder

/-! ## Matching -/

namespace BookCore

/-- What the trades are numbered and counted by. -/
def tape (c : BookCore) : Symbol × Nat × Nat × Int :=
  (c.symbol, c.nextTradeId, c.tradeCount, c.totalVolume)

theorem settleOne_tape (c : BookCore) (q : Quote) (m : Int) :
    (c.settleOne q m).tape = (c.recordTrade q.price m).tape := by
  unfold settleOne dropFilled
  split_ifs
  · cases q.order.side <;> rfl
  · rfl

theorem settle_symbol (c : BookCore) (fs : List (Quote × Int)) : (c.settle fs).symbol = c.symbol := by
  induction fs generalizing c with
  | nil => rfl
  | cons x fs ih =>
    rw [settle_cons, ih]
    exact congrArg Prod.fst (c.settleOne_tape x.1 x.2)

theorem settle_nextAddr (c : BookCore) (fs : List (Quote × Int)) :
    (c.settle fs).nextAddr = c.nextAddr := by
  induction fs generalizing c with
  | nil => rfl
  | cons x fs ih =>
    rw [settle_cons, ih]
    unfold settleOne dropFilled
    split_ifs
    · cases x.1.order.side <;> rfl
    · rfl

end BookCore

namespace L3OrderBook

/-- What `match_incoming` comes to, on a book and its ladder. -/
structure IsMatch (b : L3OrderBook) (o : Order) (ts : Timestamp) (r : MatchResult × L3OrderBook) :
    Prop where
  core : r.2.toBookCore = b.toBookCore.settle (b.ladder.fillsOf o)
  ladder : r.2.ladder = b.ladder.afterMatch o
  nonempty : ∀ s, ∀ e ∈ (r.2.levels s).entries, e.2 ≠ []
  trades : r.1.trades = b.toBookCore.fillTrades o ts (b.ladder.fillsOf o)
  remaining : r.1.remainingQty = b.ladder.remainder o

theorem RepInv.fok_iff {b : L3OrderBook} (h : b.RepInv) (o : Order) :
    fokAvailable o (b.levels o.side.opp).entries 0 < o.quantity ↔
      b.ladder.liquidity o < o.quantity := by
  have hpos : ∀ q ∈ quotes (b.levels o.side.opp).entries, 0 < q.openQty := fun q hq =>
    (h.inv.sound _ q hq).pos
  have := @le_fokAvailable o _ hpos 0
  rw [(within_eq rfl (b.levels o.side.opp)).1, Int.zero_add] at this
  rw [← not_le, ← not_le, this]
  rfl

theorem matchIncoming_eq (b : L3OrderBook) (o : Order) (ts : Timestamp) :
    b.matchIncoming o ts =
      if o.tif = .fok ∧ fokAvailable o (b.levels o.side.opp).entries 0 < o.quantity then
        ({ remainingQty := o.quantity }, b)
      else
        let r := matchAgainst (b.levels o.side.opp) o b.toBookCore o.quantity ts
        (⟨r.trades, r.remaining, r.remaining = 0⟩,
          { b.setLevels o.side.opp r.left with toBookCore := r.core }) := by
  unfold matchIncoming
  cases o.side <;> rfl

theorem RepInv.matchIncoming {b : L3OrderBook} (h : b.RepInv) (o : Order) (ts : Timestamp) :
    b.IsMatch o ts (b.matchIncoming o ts) := by
  rw [matchIncoming_eq]
  by_cases hfok : o.tif = .fok ∧ fokAvailable o (b.levels o.side.opp).entries 0 < o.quantity
  · -- the order is killed: its demand is zero
    have hd : b.ladder.demand o = 0 := if_pos (by rwa [h.fok_iff] at hfok)
    have hf : b.ladder.fillsOf o = [] := by rw [Ladder.fillsOf, hd, fills_of_nonpos _ le_rfl]
    rw [if_pos hfok]
    refine ⟨by rw [hf]; rfl, ?_, h.nonempty, by rw [hf]; rfl, ?_⟩
    · rw [Ladder.afterMatch, hd, residue_of_nonpos _ _ le_rfl, h.inv.tradable_append,
        Ladder.set_self]
    · rw [Ladder.remainder, hf, taken_nil, Int.sub_zero]
  · have hd : b.ladder.demand o = o.quantity := if_neg (by rwa [h.fok_iff] at hfok)
    obtain ⟨hc, hr, ht, hl⟩ :=
      matchAgainst_spec rfl (b.levels o.side.opp) b.toBookCore o.quantity ts
    rw [if_neg hfok]
    have hfills : b.ladder.fillsOf o = fills Quote.openQty o.quantity
        (tradable o (quotes (b.levels o.side.opp).entries)) := by rw [Ladder.fillsOf, hd]; rfl
    refine ⟨by rw [hfills]; exact hc, ?_, ?_, by rw [hfills]; exact ht, ?_⟩
    · rw [Ladder.afterMatch, hd]
      rw [setLevels_ladder, hl, hc, BookCore.settle_nextAddr]
      rfl
    · exact setLevels_nonempty h.nonempty _
        (matchLevels_nonempty o ts (h.nonempty _) b.toBookCore o.quantity)
    · rw [Ladder.remainder, hfills]
      exact hr

theorem IsMatch.repInv {b : L3OrderBook} (h : b.RepInv) {o : Order} {ts : Timestamp}
    {r : MatchResult × L3OrderBook} (hr : b.IsMatch o ts r) : r.2.RepInv := by
  refine ⟨hr.ladder ▸ h.inv.afterMatch o, hr.nonempty, ?_⟩
  rw [hr.core, hr.ladder]
  have hside : (b.ladder.afterMatch o).side o.side = b.ladder.side o.side :=
    Ladder.set_opp_side _ _ _
  have hswap := Ladder.all_perm b.ladder o.side.opp
  have hswap' := Ladder.all_perm (b.ladder.afterMatch o) o.side.opp
  rw [Side.opp_opp] at hswap hswap'
  have htracks : b.Tracks ((usedUp (b.ladder.fillsOf o) ++ (b.ladder.afterMatch o).side o.side.opp) ++
      b.ladder.side o.side) :=
    (h.tracks.perm hswap).of_frame (by rw [List.map_append, List.map_append, h.inv.afterMatch_frame o])
  rw [List.append_assoc] at htracks
  apply htracks.settle.perm
  rw [← hside]
  exact hswap'.symm

/-! ## Resting -/

end L3OrderBook

/-- The rest of the book after an order was rested. -/
def BookCore.recordRest (c : BookCore) (o : Order) : BookCore :=
  { c with
    orderIndex := c.orderIndex.insert o.id ⟨o.side, o.price, c.nextAddr⟩
    bidOrderCount := if o.side = .buy then c.bidOrderCount + 1 else c.bidOrderCount
    askOrderCount := if o.side = .sell then c.askOrderCount + 1 else c.askOrderCount
    nextAddr := c.nextAddr + 1 }

theorem BookCore.Tracks.recordRest {c : BookCore} {l : List Quote} (h : c.Tracks l) {o : Order}
    (hnew : o.id ∉ c.orderIndex) (remaining : Int) (ts : Timestamp) :
    (c.recordRest o).Tracks (Ladder.newQuote o remaining ts c.nextAddr :: l) := by
  refine ⟨h.index.insert hnew _, ?_⟩
  intro s
  rw [List.countP_cons, ← h.count]
  cases hs : o.side <;> cases s <;> simp [BookCore.recordRest, orderCount, Ladder.newQuote, hs]

namespace L3OrderBook

theorem addRestingOrder_eq (b : L3OrderBook) (o : Order) (remaining : Int) (ts : Timestamp) :
    b.addRestingOrder o remaining ts =
      { b.setLevels o.side ((b.levels o.side).push o.price fun pos =>
          ⟨b.nextAddr,
            { (Ladder.newQuote o remaining ts b.nextAddr).order with queuePos := .ofNat pos }⟩) with
        toBookCore := b.toBookCore.recordRest o } := by
  unfold addRestingOrder BookCore.recordRest Ladder.newQuote
  cases o.side <;> rfl

theorem addRestingOrder_ladder (b : L3OrderBook) (o : Order) (remaining : Int) (ts : Timestamp) :
    (b.addRestingOrder o remaining ts).ladder = b.ladder.rest o remaining ts := by
  set new := Ladder.newQuote o remaining ts b.nextAddr
  obtain ⟨i, hi⟩ := (b.levels o.side).flat_push o.price fun pos =>
    ⟨b.nextAddr, { new.order with queuePos := .ofNat pos }⟩
  simp only [decide_not] at hi
  have hquotes : quotes ((b.levels o.side).push o.price fun pos =>
      ⟨b.nextAddr, { new.order with queuePos := .ofNat pos }⟩).entries =
      place (fun q => o.side.better o.price q.price) new (b.ladder.side o.side) := by
    unfold quotes place
    rw [show flatList _ = _ from hi, List.map_append, List.map_cons]
    change _ = (quotes _).filter _ ++ new :: (quotes _).filter _
    rw [quotes, List.filter_map, List.filter_map]
    rfl
  rw [addRestingOrder_eq, setLevels_ladder, hquotes]
  rfl

theorem RepInv.addRestingOrder {b : L3OrderBook} (h : b.RepInv) {o : Order} (hnew : ¬ b.ladder.Has o.id)
    {remaining : Int} {ts : Timestamp} (hrest : (b.ladder.rest o remaining ts).Inv) :
    (b.addRestingOrder o remaining ts).RepInv := by
  refine ⟨addRestingOrder_ladder b o remaining ts ▸ hrest, ?_, ?_⟩
  · rw [addRestingOrder_eq]
    exact setLevels_nonempty h.nonempty _ (push_nonempty (h.nonempty o.side))
  · rw [addRestingOrder_ladder]
    have hcore : (b.addRestingOrder o remaining ts).toBookCore = b.toBookCore.recordRest o := by
      rw [addRestingOrder_eq]
    rw [hcore]
    apply (h.tracks.recordRest (mt (h.mem_index o.id).mp hnew) remaining ts).perm
    exact (Ladder.rest_perm b.ladder o remaining ts).symm

/-! ## Canceling -/

end L3OrderBook

section EraseNode
variable {s : Side} (m : PriceLevels s) (price : Int) (it : Nat)

theorem quotes_updateQueuePositions :
    quotes (updateQueuePositions m price).entries = quotes m.entries := by
  unfold updateQueuePositions
  cases hl : m.lookup price with
  | none => rfl
  | some queue =>
    have hnum : (numberQueue queue).map (fun n => (n.addr, n.val.unposed)) =
        queue.map fun n => (n.addr, n.val.unposed) :=
      List.ext_getElem (by simp [numberQueue]) fun i _ _ => by simp [numberQueue, L3Order.unposed]
    have hflat := flat_assign_map hl (fun n => (n.addr, n.val.unposed)) hnum
    have := congrArg (List.map fun x : Int × Nat × L3Order => Quote.mk x.1 x.2.1 x.2.2) hflat
    rw [List.map_map, List.map_map] at this
    exact this

theorem quotes_eraseNode : quotes (eraseNode m price it).entries =
    (quotes m.entries).filter fun q => ¬ (q.price = price ∧ q.addr = it) := by
  have hflat : (quotes m.entries).filter (fun q => ¬ (q.price = price ∧ q.addr = it)) =
      (m.flat.filter fun x => ¬ (x.1 = price ∧ x.2.addr = it)).map Quote.of := List.filter_map
  rw [hflat, flat_filter_unlink]
  unfold eraseNode
  cases m.lookup price with
  | none => rfl
  | some queue =>
    dsimp only
    split_ifs
    · rfl
    · exact quotes_updateQueuePositions _ price

theorem eraseNode_eq : eraseNode m price it =
    match m.lookup price with
    | none => m
    | some queue =>
      if (ListNode.unlink it queue).isEmpty then m.erase price
      else m.assign price (numberQueue (ListNode.unlink it queue)) := by
  unfold eraseNode
  cases hl : m.lookup price with
  | none => rfl
  | some queue =>
    dsimp only
    rw [updateQueuePositions, lookup_assign hl]
    dsimp only
    rw [assign_assign]

theorem eraseNode_nonempty (h : ∀ e ∈ m.entries, e.2 ≠ []) :
    ∀ e ∈ (eraseNode m price it).entries, e.2 ≠ [] := by
  rw [eraseNode_eq]
  cases m.lookup price with
  | none => exact h
  | some queue =>
    dsimp only
    split_ifs with hempty
    · intro e he
      exact h e (List.mem_of_mem_filter he)
    · intro e he
      have hne : ListNode.unlink it queue ≠ [] := fun h => hempty (List.isEmpty_iff.mpr h)
      rcases mem_assign he with ⟨he, -⟩ | rfl
      · exact h e he
      · simpa [numberQueue] using hne

end EraseNode

theorem Ladder.Inv.cancel_eq {L : Ladder} (h : L.Inv) {q : Quote} (hq : q ∈ L.all) :
    L.cancel q.order.id = L.set q.order.side ((L.side q.order.side).filter fun r =>
      ¬ (r.price = q.price ∧ r.addr = q.addr)) := by
  unfold Ladder.cancel Ladder.set
  congr 1
  funext s
  by_cases hs : s = q.order.side
  · rw [hs, Function.update_self]
    apply List.filter_congr
    intro r hr
    have hr := Ladder.mem_all.mpr ⟨_, hr⟩
    rw [decide_eq_decide, not_iff_not]
    constructor
    · intro hid
      rw [h.eq_of_id hr hq hid]
      exact ⟨rfl, rfl⟩
    · rintro ⟨-, haddr⟩
      rw [h.eq_of_addr hr hq haddr]
  · rw [Function.update_of_ne hs]
    refine List.filter_eq_self.mpr fun r hr => decide_eq_true fun hid => hs ?_
    rw [← h.eq_of_id (Ladder.mem_all.mpr ⟨s, hr⟩) hq hid, (h.sound s r hr).side]

theorem Ladder.Inv.cancel_side_opp {L : Ladder} (h : L.Inv) {q : Quote} (hq : q ∈ L.all) :
    (L.cancel q.order.id).side q.order.side.opp = L.side q.order.side.opp := by
  rw [h.cancel_eq hq, set_side_opp]

theorem Ladder.Inv.cancel_perm {L : Ladder} (h : L.Inv) {q : Quote} (hq : q ∈ L.all) :
    L.all.Perm (q :: (L.cancel q.order.id).all) := by
  have hcancel : (L.cancel q.order.id).all = L.all.erase q := by
    rw [(List.Nodup.of_map _ h.ids).erase_eq_filter, Ladder.all, Ladder.all, List.filter_append]
    unfold Ladder.cancel
    congr 1 <;> refine List.filter_congr fun r hr => ?_ <;>
      rw [Bool.eq_iff_iff, bne_iff_ne, decide_eq_true_iff, not_iff_not]
    all_goals
      have hr := Ladder.mem_all.mpr ⟨_, hr⟩
      exact ⟨h.eq_of_id hr hq, fun hrq => by rw [hrq]⟩
  rw [hcancel]
  exact List.perm_cons_erase hq

theorem quotes_nodes (es : List (Int × OrderQueue)) :
    (quotes es).map (fun q => (q.addr, q.order)) =
      (es.flatMap Prod.snd).map fun n => (n.addr, n.val.unposed) := by
  rw [← map_snd_flatList, quotes, List.map_map, List.map_map]
  rfl

namespace L3OrderBook

theorem nodes_eq (b : L3OrderBook) :
    b.nodes.map (fun n => (n.addr, n.val.unposed)) = b.ladder.all.map fun q => (q.addr, q.order) := by
  rw [nodes, List.map_append, ← quotes_nodes, ← quotes_nodes, ← List.map_append]
  rfl

theorem quote_of_node {b : L3OrderBook} {n : ListNode L3Order} (hn : n ∈ b.nodes) :
    ∃ q ∈ b.ladder.all, q.addr = n.addr ∧ q.order = n.val.unposed := by
  have hmem := List.mem_map_of_mem (f := fun n : ListNode L3Order => (n.addr, n.val.unposed)) hn
  rw [nodes_eq] at hmem
  obtain ⟨q, hq, heq⟩ := List.mem_map.mp hmem
  exact ⟨q, hq, (Prod.mk.inj heq).1, (Prod.mk.inj heq).2⟩

theorem node_of_quote {b : L3OrderBook} {q : Quote} (hq : q ∈ b.ladder.all) :
    ∃ n ∈ b.nodes, n.addr = q.addr ∧ n.val.unposed = q.order := by
  have hmem := List.mem_map_of_mem (f := fun q : Quote => (q.addr, q.order)) hq
  rw [← nodes_eq] at hmem
  obtain ⟨n, hn, heq⟩ := List.mem_map.mp hmem
  exact ⟨n, hn, (Prod.mk.inj heq).1, (Prod.mk.inj heq).2⟩

theorem RepInv.nodup_nodes {b : L3OrderBook} (h : b.RepInv) : (b.nodes.map ListNode.addr).Nodup := by
  have := congrArg (List.map Prod.fst) b.nodes_eq
  rw [List.map_map, List.map_map] at this
  exact this ▸ h.inv.stamps

theorem RepInv.deref_index {b : L3OrderBook} (h : b.RepInv) {q : Quote} (hq : q ∈ b.ladder.all) :
    (b.deref q.addr).unposed = q.order := by
  obtain ⟨n, hn, haddr, horder⟩ := node_of_quote hq
  rw [deref, ← haddr, ListNode.deref_of_mem hn h.nodup_nodes, Option.getD_some, horder]

theorem removeAt_eq (b : L3OrderBook) (q : Quote) :
    { b.removeAt q.entry.2 with orderIndex := b.orderIndex.erase q.order.id } =
      ({ b.setLevels q.order.side (eraseNode (b.levels q.order.side) q.price q.addr) with
        toBookCore := b.toBookCore.dropFilled q.order } : L3OrderBook) := by
  unfold removeAt BookCore.dropFilled Quote.entry
  cases q.order.side <;> rfl

theorem RepInv.removeAt {b : L3OrderBook} (h : b.RepInv) {q : Quote} (hq : q ∈ b.ladder.all) :
    let b' := { b.removeAt q.entry.2 with orderIndex := b.orderIndex.erase q.order.id }
    b'.ladder = b.ladder.cancel q.order.id ∧ b'.RepInv := by
  rw [removeAt_eq]
  intro b'
  have hladder : b'.ladder = b.ladder.cancel q.order.id := by
    rw [setLevels_ladder, quotes_eraseNode, h.inv.cancel_eq hq]
    unfold BookCore.dropFilled
    cases q.order.side <;> rfl
  refine ⟨hladder, hladder ▸ h.inv.cancel _, ?_, ?_⟩
  · exact setLevels_nonempty h.nonempty _ (eraseNode_nonempty _ _ _ (h.nonempty _))
  · rw [hladder]
    refine BookCore.Tracks.dropFilled (h.tracks.perm ?_)
    exact h.inv.cancel_perm hq

/-- The report of a successful cancel. -/
def canceledReport (b : L3OrderBook) (q : Quote) (ts : Timestamp) : ExecutionReport where
  orderId := q.order.id
  transactTime := ts
  traderId := q.order.traderId
  symbol := b.symbol
  side := q.order.side
  price := q.order.price
  orderQty := q.openQty + q.order.filledQty
  filledQty := q.order.filledQty
  leavesQty := 0
  status := .canceled
  clOrdId := q.order.clOrdId

theorem RepInv.cancelOrder_eq {b : L3OrderBook} (h : b.RepInv) {q : Quote} (hq : q ∈ b.ladder.all)
    (ts : Timestamp) :
    let b' := { b.removeAt q.entry.2 with orderIndex := b.orderIndex.erase q.order.id }
    b.cancelOrder q.order.id ts = ⟨b.canceledReport q ts, b', [b'.publishTob ts]⟩ := by
  have hl : b.orderIndex.lookup q.order.id = some q.entry.2 :=
    (h.tracks.index.lookup _ _).mpr (List.mem_map_of_mem hq)
  have hderef : ∀ {β : Type} (f : L3Order → β), (∀ o : L3Order, f o = f o.unposed) →
      f (b.deref q.entry.2.it) = f q.order := fun f hf => by rw [hf, ← h.deref_index hq]; rfl
  rw [cancelOrder, hl]
  refine BookResult.mk.injEq .. |>.mpr ⟨?_, rfl, rfl⟩
  simp only [canceledReport, Quote.openQty, L3Order.openQty, ExecutionReport.mk.injEq, true_and]
  exact ⟨hderef (·.traderId) fun _ => rfl, hderef (·.side) fun _ => rfl, hderef (·.price) fun _ => rfl,
    hderef (fun o => o.visibleQty + o.hiddenQty + o.filledQty) fun _ => rfl,
    hderef (·.filledQty) fun _ => rfl, hderef (·.clOrdId) fun _ => rfl⟩

theorem RepInv.cancelOrder_of_not_has {b : L3OrderBook} (h : b.RepInv) {id : OrderId}
    (hid : ¬ b.ladder.Has id) (ts : Timestamp) :
    b.cancelOrder id ts = ⟨{ orderId := id, transactTime := ts, status := .rejected }, b, []⟩ := by
  rw [← h.mem_index, ← Finmap.lookup_eq_none] at hid
  rw [cancelOrder, hid]

/-! ## Submitting -/

theorem handleRemainder_book (b : L3OrderBook) (rpt : ExecutionReport) (o : Order) (res : MatchResult)
    (ts : Timestamp) :
    (b.handleRemainder rpt o res ts).2 =
      if 0 < res.remainingQty ∧ o.type = .limit ∧ (o.tif = .day ∨ o.tif = .gtc) then
        b.addRestingOrder o res.remainingQty ts
      else b := by
  unfold handleRemainder
  by_cases h : 0 < res.remainingQty ∧ o.type = .limit
  · rw [if_pos h]
    cases htif : o.tif <;> simp [h]
  · rw [if_neg h, if_neg fun h' => h ⟨h'.1, h'.2.1⟩]

theorem addOrder_of_not_mem {b : L3OrderBook} {o : Order} (hid : o.id ∉ b.orderIndex)
    (ts : Timestamp) :
    let m := b.matchIncoming o ts
    let r := m.2.handleRemainder (matchedReport (addReport o ts) o m.1) o m.1 ts
    (b.addOrder o ts).rpt = r.1 ∧ (b.addOrder o ts).book = r.2 ∧
      (b.addOrder o ts).trades = m.1.trades := by
  unfold addOrder
  rw [if_neg hid]
  refine ⟨rfl, rfl, ?_⟩
  unfold BookResult.trades
  rw [List.filterMap_append, List.filterMap_map]
  have htob : ∀ (p : Prop) [Decidable p] (b : L3OrderBook),
      (if p then [b.publishTob ts] else []).filterMap BookEvent.trade? = [] := by
    intro p _ b
    split_ifs <;> rfl
  rw [htob, List.append_nil]
  exact List.filterMap_some

theorem RepInv.addOrder_of_has {b : L3OrderBook} (h : b.RepInv) {o : Order} (hid : b.ladder.Has o.id)
    (ts : Timestamp) :
    b.addOrder o ts =
      ⟨{ addReport o ts with
          status := .rejected, rejectReason := .duplicateOrderId, leavesQty := 0 }, b, []⟩ :=
  if_pos ((h.mem_index o.id).mpr hid)

/-- **What an order operation comes to** when the ladder `L'` is left and the fills `fs` were made
for `incoming`. -/
structure Refines (b : L3OrderBook) (incoming : Order) (ts : Timestamp) (L' : Ladder)
    (fs : List (Quote × Int)) (r : BookResult) : Prop where
  ladder : r.book.ladder = L'
  repInv : r.book.RepInv
  trades : r.trades = b.fillTrades incoming ts fs
  tape : r.book.tape = (b.settle fs).tape

theorem RepInv.addOrder {b : L3OrderBook} (h : b.RepInv) (o : Order) (ts : Timestamp) :
    b.Refines o ts (b.ladder.add o ts) (b.ladder.addFills o) (b.addOrder o ts) := by
  unfold Ladder.add Ladder.addFills
  by_cases hid : b.ladder.Has o.id
  · rw [h.addOrder_of_has hid, if_pos hid, if_pos hid]
    exact ⟨rfl, h, rfl, rfl⟩
  · rw [if_neg hid, if_neg hid]
    obtain ⟨-, hbook, htrades⟩ := addOrder_of_not_mem (mt (h.mem_index o.id).mp hid) ts
    have hm := h.matchIncoming o ts
    have hinv := hm.repInv h
    rw [handleRemainder_book, hm.remaining] at hbook
    refine ⟨?_, ?_, htrades.trans hm.trades, ?_⟩
    · rw [hbook]
      split_ifs with hrest hrest' hrest'
      · rw [addRestingOrder_ladder, hm.ladder]
      · exact absurd hrest hrest'
      · exact absurd hrest' hrest
      · exact hm.ladder
    · rw [hbook]
      split_ifs with hrest
      · refine hinv.addRestingOrder ?_ ?_
        · rw [hm.ladder]
          exact h.inv.not_has_afterMatch hid
        · rw [hm.ladder]
          exact h.inv.rest_afterMatch hid hrest ts
      · exact hinv
    · rw [hbook, ← hm.core]
      split_ifs
      · rw [addRestingOrder_eq]
        rfl
      · rfl

theorem RepInv.cancelOrder {b : L3OrderBook} (h : b.RepInv) (incoming : Order) (id : OrderId)
    (ts : Timestamp) :
    b.Refines incoming ts (b.ladder.cancel id) [] (b.cancelOrder id ts) := by
  by_cases hid : b.ladder.Has id
  · obtain ⟨q, hq, rfl⟩ := hid
    obtain ⟨hl, hinv⟩ := h.removeAt hq
    rw [h.cancelOrder_eq hq]
    refine ⟨hl, hinv, rfl, ?_⟩
    unfold L3OrderBook.removeAt Quote.entry
    cases q.order.side <;> rfl
  · rw [h.cancelOrder_of_not_has hid, Ladder.cancel_of_not_has hid]
    exact ⟨rfl, h, rfl, rfl⟩

theorem RepInv.exists_of_lookup {b : L3OrderBook} (h : b.RepInv) {id : OrderId} {loc : OrderLocation}
    (hloc : b.orderIndex.lookup id = some loc) :
    ∃ q ∈ b.ladder.all, q.order.id = id ∧ q.order.side = loc.side := by
  obtain ⟨q, hq, hentry⟩ := List.mem_map.mp ((h.tracks.index.lookup _ _).mp hloc)
  obtain ⟨hid, hside⟩ := Prod.mk.inj hentry
  exact ⟨q, hq, hid, congrArg OrderLocation.side hside⟩

theorem RepInv.replaceOrder_eq {b : L3OrderBook} (h : b.RepInv) {q : Quote} (hq : q ∈ b.ladder.all)
    {req : ReplaceRequest} (hid : q.order.id = req.orderId) (ts : Timestamp) :
    let a := (b.cancelOrder req.orderId ts).book.addOrder (replacement req q.order.side ts) ts
    (b.replaceOrder req ts).book = a.book ∧ (b.replaceOrder req ts).trades = a.trades ∧
      (b.replaceOrder req ts).rpt = a.rpt := by
  rw [replaceOrder, ← hid, h.cancelOrder_eq hq]
  exact ⟨rfl, rfl, rfl⟩

theorem RepInv.replaceOrder_of_not_has {b : L3OrderBook} (h : b.RepInv) {req : ReplaceRequest}
    (hid : ¬ b.ladder.Has req.orderId) (ts : Timestamp) :
    b.replaceOrder req ts =
      ⟨{ orderId := req.orderId, transactTime := ts, status := .rejected }, b, []⟩ := by
  rw [replaceOrder, h.cancelOrder_of_not_has hid]
  rfl

theorem RepInv.replaceOrder {b : L3OrderBook} (h : b.RepInv) (req : ReplaceRequest)
    (ts : Timestamp) :
    (b.replaceOrder req ts).book.ladder = b.ladder.replace req ts ∧
      (b.replaceOrder req ts).book.RepInv := by
  unfold Ladder.replace
  cases hf : b.ladder.all.find? fun q => q.order.id = req.orderId with
  | none =>
    have hid : ¬ b.ladder.Has req.orderId := by
      rintro ⟨q, hq, hid⟩
      simpa [hid] using List.find?_eq_none.mp hf q hq
    rw [h.replaceOrder_of_not_has hid]
    exact ⟨rfl, h⟩
  | some q =>
    have hid : q.order.id = req.orderId := by simpa using List.find?_some hf
    rw [(h.replaceOrder_eq (List.mem_of_find?_eq_some hf) hid ts).1]
    have hc := h.cancelOrder (replacement req q.order.side ts) req.orderId ts
    have ha := hc.repInv.addOrder (replacement req q.order.side ts) ts
    exact ⟨hc.ladder ▸ ha.ladder, ha.repInv⟩

/-! ## Runs -/

/-- **Step refinement.** -/
theorem RepInv.step {b : L3OrderBook} (h : b.RepInv) (op : BookOp) :
    (b.step op).book.ladder = b.ladder.step op ∧ (b.step op).book.RepInv := by
  cases op with
  | add o ts => exact ⟨(h.addOrder o ts).ladder, (h.addOrder o ts).repInv⟩
  | cancel id ts => exact ⟨(h.cancelOrder {} id ts).ladder, (h.cancelOrder {} id ts).repInv⟩
  | replace req ts => exact h.replaceOrder req ts

theorem RepInv.step_symbol {b : L3OrderBook} (h : b.RepInv) (op : BookOp) :
    (b.step op).book.symbol = b.symbol := by
  have hrefines : ∀ {b : L3OrderBook} {o : Order} {ts : Timestamp} {L' : Ladder}
      {fs : List (Quote × Int)} {r : BookResult}, b.Refines o ts L' fs r → r.book.symbol = b.symbol :=
    fun hr => (congrArg Prod.fst hr.tape).trans (BookCore.settle_symbol _ _)
  cases op with
  | add o ts => exact hrefines (h.addOrder o ts)
  | cancel id ts => exact hrefines (h.cancelOrder {} id ts)
  | replace req ts =>
    by_cases hid : b.ladder.Has req.orderId
    · obtain ⟨q, hq, hid⟩ := hid
      have hc := h.cancelOrder {} req.orderId ts
      rw [L3OrderBook.step, (h.replaceOrder_eq hq hid ts).1]
      exact (hrefines (hc.repInv.addOrder _ ts)).trans (hrefines hc)
    · rw [L3OrderBook.step, h.replaceOrder_of_not_has hid]

/-- **Run refinement**: the book of a run is the ladder of the same run. -/
theorem RepInv.run {b : L3OrderBook} (h : b.RepInv) (ops : List BookOp) :
    (b.run ops).ladder = ops.foldl Ladder.step b.ladder ∧ (b.run ops).RepInv := by
  induction ops generalizing b with
  | nil => exact ⟨rfl, h⟩
  | cons op ops ih =>
    obtain ⟨hl, hinv⟩ := h.step op
    rw [List.foldl_cons, ← hl]
    exact ih hinv

theorem run_concat (b : L3OrderBook) (ops : List BookOp) (op : BookOp) :
    b.run (ops ++ [op]) = ((b.run ops).step op).book := List.foldl_concat ..

theorem run_symbol (symbol : Symbol) (ops : List BookOp) :
    ((create symbol).run ops).symbol = symbol := by
  induction ops using List.reverseRecOn with
  | nil => rfl
  | append_singleton ops op ih =>
    rw [run_concat, ((repInv_create symbol).run ops).2.step_symbol op, ih]

theorem Reachable.repInv {b : L3OrderBook} (h : b.Reachable) : b.RepInv := by
  obtain ⟨symbol, ops, rfl⟩ := h
  exact ((repInv_create symbol).run ops).2

end L3OrderBook

end HftSdk
