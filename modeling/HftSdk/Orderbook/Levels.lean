import HftSdk.Orderbook.Reports

/-!
# Levels

What the operations do to the two maps of queues: the loops leave a part of the other side, the
remainder goes to the end of a queue on the order's own side, and a cancel edits one queue. But for
the cached positions, which are not in a quote, the quotes of a side determine its queues.
-/

namespace HftSdk

open SortedMap

/-! ## Queues and quotes -/

/-- The levels without the cached queue positions. -/
def unposedLevels (levels : List (Int × OrderQueue)) : List (Int × OrderQueue) :=
  levels.map fun e => (e.1, e.2.map fun n => ⟨n.addr, n.val.unposed⟩)

theorem quotes_unposedLevels (levels : List (Int × OrderQueue)) :
    quotes levels =
      (flatList (unposedLevels levels)).map fun x => ⟨x.1, x.2.addr, x.2.val⟩ := by
  rw [unposedLevels, flatList_map, List.map_map]
  rfl

/-- **The quotes determine the levels**, up to the cached positions. -/
theorem unposedLevels_eq {s : Side} {m m' : PriceLevels s} (hne : ∀ e ∈ m.entries, e.2 ≠ [])
    (hne' : ∀ e ∈ m'.entries, e.2 ≠ []) (h : quotes m.entries = quotes m'.entries) :
    unposedLevels m.entries = unposedLevels m'.entries := by
  have hkeys : ∀ m : PriceLevels s, ((unposedLevels m.entries).map Prod.fst).Nodup := by
    intro m
    rw [unposedLevels, List.map_map]
    exact m.keys_nodup
  have hnonempty : ∀ m : PriceLevels s, (∀ e ∈ m.entries, e.2 ≠ []) →
      ∀ e ∈ unposedLevels m.entries, e.2 ≠ [] := by
    intro m hm e he
    obtain ⟨e', he', rfl⟩ := List.mem_map.mp he
    simpa using hm e' he'
  apply flatList_inj (hkeys m) (hkeys m') (hnonempty m hne) (hnonempty m' hne')
  rw [quotes_unposedLevels, quotes_unposedLevels] at h
  refine List.map_injective_iff.mpr ?_ h
  rintro ⟨p, a, o⟩ ⟨p', a', o'⟩ hx
  obtain ⟨hp, ha, ho⟩ := Quote.mk.inj hx
  dsimp only at hp ha ho
  rw [hp, ha, ho]

namespace L3OrderBook

variable {b : L3OrderBook}

theorem queueAt_eq (b : L3OrderBook) (s : Side) (p : Int) :
    b.queueAt s p = ((b.levels s).lookup p).getD [] := by cases s <;> rfl

theorem queueAt_of_mem (b : L3OrderBook) {s : Side} {e : Int × OrderQueue}
    (he : e ∈ (b.levels s).entries) : b.queueAt s e.1 = e.2 := by
  rw [queueAt_eq, lookup_eq_some.mpr he, Option.getD_some]

theorem queueAt_quotes (b : L3OrderBook) (s : Side) (p : Int) :
    (b.queueAt s p).map (fun n => Quote.of (p, n)) =
      (b.ladder.side s).filter fun q => q.price = p := by
  change _ = ((b.levels s).flat.map Quote.of).filter fun q => q.price = p
  rw [List.filter_map, queueAt_eq]
  change _ = ((b.levels s).flat.filter fun x => x.1 = p).map Quote.of
  rw [flat_filter_key, List.map_map]
  rfl

/-! ## The operations -/

theorem setLevels_levels (b : L3OrderBook) (s : Side) (m : PriceLevels s) :
    (b.setLevels s m).levels s = m := by cases s <;> rfl

theorem setLevels_levels_opp (b : L3OrderBook) (s : Side) (m : PriceLevels s) :
    (b.setLevels s m).levels s.opp = b.levels s.opp := by cases s <;> rfl

theorem setLevels_opp_levels (b : L3OrderBook) (s : Side) (m : PriceLevels s.opp) :
    (b.setLevels s.opp m).levels s = b.levels s := by cases s <;> rfl

theorem RepInv.matchIncoming_levels (h : b.RepInv) (o : Order) (ts : Timestamp) :
    ((b.matchIncoming o ts).2.levels o.side.opp).entries =
        (matchLevels o ts (b.levels o.side.opp).entries b.toBookCore (b.ladder.demand o)).left ∧
      (b.matchIncoming o ts).2.levels o.side = b.levels o.side := by
  have hfok := h.fok_iff o
  rw [matchIncoming_eq, Ladder.demand]
  split_ifs with hk hk' hk'
  · rw [matchLevels_of_nonpos _ _ _ _ le_rfl]
    exact ⟨rfl, rfl⟩
  · exact absurd ⟨hk.1, hfok.mp hk.2⟩ hk'
  · exact absurd ⟨hk'.1, hfok.mpr hk'.2⟩ hk
  · exact ⟨congrArg entries (b.setLevels_levels _ _), b.setLevels_opp_levels _ _⟩

theorem RepInv.addOrder_levels (h : b.RepInv) {o : Order} (hid : ¬ b.ladder.Has o.id)
    (ts : Timestamp) :
    ((b.addOrder o ts).book.levels o.side.opp).entries =
        (matchLevels o ts (b.levels o.side.opp).entries b.toBookCore (b.ladder.demand o)).left ∧
      (b.addOrder o ts).book.levels o.side =
        if b.ladder.Rests o then
          (b.levels o.side).push o.price fun pos => ⟨b.nextAddr,
            { (Ladder.newQuote o (b.ladder.remainder o) ts b.nextAddr).order with
              queuePos := .ofNat pos }⟩
        else b.levels o.side := by
  obtain ⟨hopp, hside⟩ := h.matchIncoming_levels o ts
  have hm := h.matchIncoming o ts
  have haddr : (b.matchIncoming o ts).2.nextAddr = b.nextAddr :=
    congrArg Ladder.stamp hm.ladder
  rw [(addOrder_of_not_mem (mt (h.mem_index o.id).mp hid) ts).2.1, handleRemainder_book, hm.remaining]
  change _ ∧ _ = if 0 < b.ladder.remainder o ∧ o.type = .limit ∧ (o.tif = .day ∨ o.tif = .gtc) then _
    else _
  split_ifs
  · rw [addRestingOrder_eq, haddr]
    refine ⟨?_, ?_⟩
    · rw [← hopp]
      exact congrArg entries (setLevels_levels_opp _ _ _)
    · rw [← hside]
      exact setLevels_levels _ _ _
  · exact ⟨hopp, hside⟩

theorem RepInv.addOrder_core (h : b.RepInv) {o : Order} (hid : ¬ b.ladder.Has o.id)
    (ts : Timestamp) :
    (b.addOrder o ts).book.toBookCore =
      if b.ladder.Rests o then (b.toBookCore.settle (b.ladder.fillsOf o)).recordRest o
      else b.toBookCore.settle (b.ladder.fillsOf o) := by
  have hm := h.matchIncoming o ts
  rw [(addOrder_of_not_mem (mt (h.mem_index o.id).mp hid) ts).2.1, handleRemainder_book, hm.remaining,
    ← hm.core]
  change _ = if 0 < b.ladder.remainder o ∧ o.type = .limit ∧ (o.tif = .day ∨ o.tif = .gtc) then _
    else _
  split_ifs
  · rw [addRestingOrder_eq]
  · rfl

theorem RepInv.cancelOrder_levels (h : b.RepInv) {q : Quote} (hq : q ∈ b.ladder.all)
    (ts : Timestamp) :
    (b.cancelOrder q.order.id ts).book.levels q.order.side =
        eraseNode (b.levels q.order.side) q.price q.addr ∧
      (b.cancelOrder q.order.id ts).book.levels q.order.side.opp = b.levels q.order.side.opp := by
  rw [h.cancelOrder_eq hq ts, removeAt_eq]
  exact ⟨setLevels_levels _ _ _, setLevels_levels_opp _ _ _⟩

theorem RepInv.cancelOrder_core (h : b.RepInv) {q : Quote} (hq : q ∈ b.ladder.all) (ts : Timestamp) :
    (b.cancelOrder q.order.id ts).book.toBookCore = b.toBookCore.dropFilled q.order := by
  rw [h.cancelOrder_eq hq ts, removeAt_eq]

end L3OrderBook

end HftSdk
