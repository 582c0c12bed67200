import HftSdk.Orderbook.Invariants

/-!
# Time order

Priority within a level goes by list nodes, not by the `entry_time` that an order carries. When the
times of the calls never decrease the two agree: stamps are given out in the order of the calls, so an
earlier stamp means an entry no later (`Ladder.Timed`), and every queue stands in order of entry
(`RepInv.inTimeOrder`). No trade is made before its resting order was entered (`RepInv.trade_resting`).
-/

namespace HftSdk

/-- The time of a call. -/
def BookOp.ts : BookOp → Timestamp
  | .add _ ts => ts
  | .cancel _ ts => ts
  | .replace _ ts => ts

theorem Quote.entryTime_of_frame {q r : Quote} (h : q.frame = r.frame) :
    q.order.entryTime = r.order.entryTime := by
  have := congrArg (fun q => q.order.entryTime) h
  exact this

namespace Ladder

/-- No order is from the future, and an earlier stamp means an entry no later. -/
structure Timed (L : Ladder) (now : Timestamp) : Prop where
  entered : ∀ q ∈ L.all, q.order.entryTime ≤ now
  stamps : ∀ q ∈ L.all, ∀ r ∈ L.all, q.addr < r.addr → q.order.entryTime ≤ r.order.entryTime

variable {L L' : Ladder} {now ts : Timestamp}

theorem timed_empty (now : Timestamp) : empty.Timed now where
  entered _ h := absurd h List.not_mem_nil
  stamps _ h := absurd h List.not_mem_nil

theorem Timed.mono (h : L.Timed now) (hle : now ≤ ts) : L.Timed ts where
  entered q hq := UInt64.le_trans (h.entered q hq) hle
  stamps := h.stamps

theorem Timed.shrink (h : L.Timed now) (hsub : ∀ q ∈ L'.all, ∃ r ∈ L.all, q.frame = r.frame) :
    L'.Timed now where
  entered q hq := by
    obtain ⟨r, hr, hqr⟩ := hsub q hq
    rw [Quote.entryTime_of_frame hqr]
    exact h.entered r hr
  stamps q hq r hr hlt := by
    obtain ⟨q', hq', hqq⟩ := hsub q hq
    obtain ⟨r', hr', hrr⟩ := hsub r hr
    rw [Quote.addr_of_frame hqq, Quote.addr_of_frame hrr] at hlt
    rw [Quote.entryTime_of_frame hqq, Quote.entryTime_of_frame hrr]
    exact h.stamps q' hq' r' hr' hlt

theorem Timed.cancel (h : L.Timed now) (id : OrderId) : (L.cancel id).Timed now := by
  apply h.shrink
  intro q hq
  obtain ⟨s, hq⟩ := mem_all.mp hq
  exact ⟨q, mem_all.mpr ⟨s, List.mem_of_mem_filter hq⟩, rfl⟩

theorem Timed.add (h : L.Timed now) (hinv : L.Inv) (hle : now ≤ ts) (o : Order) :
    (L.add o ts).Timed ts := by
  by_cases hid : L.Has o.id
  · rw [Ladder.add, if_pos hid]
    exact h.mono hle
  have hmem : ∀ q ∈ (L.add o ts).all, q = newQuote o (L.remainder o) ts L.stamp ∨
      ∃ r ∈ L.all, q.frame = r.frame := by
    intro q hq
    rcases hinv.mem_add hid hq with ⟨-, hnew⟩ | ⟨-, r, hr, hframe, -, -⟩
    · exact Or.inl hnew
    · exact Or.inr ⟨r, hr, hframe⟩
  constructor
  · intro q hq
    rcases hmem q hq with rfl | ⟨r, hr, hqr⟩
    · exact UInt64.le_refl ts
    · rw [Quote.entryTime_of_frame hqr]
      exact UInt64.le_trans (h.entered r hr) hle
  · intro q hq r hr hlt
    rcases hmem q hq with rfl | ⟨q', hq', hqq⟩
    · rcases hmem r hr with rfl | ⟨r', hr', hrr⟩
      · exact absurd hlt (lt_irrefl _)
      · -- nothing has a later stamp than the new order
        have hfresh := hinv.fresh r' hr'
        rw [Quote.addr_of_frame hrr] at hlt
        exact absurd (hlt.trans hfresh) (lt_irrefl _)
    · rw [Quote.entryTime_of_frame hqq]
      rcases hmem r hr with rfl | ⟨r', hr', hrr⟩
      · exact UInt64.le_trans (h.entered q' hq') hle
      · rw [Quote.addr_of_frame hqq, Quote.addr_of_frame hrr] at hlt
        rw [Quote.entryTime_of_frame hrr]
        exact h.stamps q' hq' r' hr' hlt

theorem Timed.step (h : L.Timed now) (hinv : L.Inv) {op : BookOp} (hle : now ≤ op.ts) :
    (L.step op).Timed op.ts := by
  cases op with
  | add o ts => exact h.add hinv hle o
  | cancel id ts => exact (h.cancel id).mono hle
  | replace req ts =>
    unfold Ladder.step Ladder.replace
    dsimp only
    split
    · exact h.mono hle
    · exact (h.cancel _).add (hinv.cancel _) hle _

end Ladder

namespace L3OrderBook

variable {b : L3OrderBook} {now : Timestamp}

/-- Every queue stands in order of entry, and no order is from the future. -/
def InTimeOrder (b : L3OrderBook) (now : Timestamp) : Prop :=
  ∀ s, ∀ e ∈ (b.levels s).entries,
    (e.2.map fun n => n.val.entryTime).Pairwise (· ≤ ·) ∧ ∀ n ∈ e.2, n.val.entryTime ≤ now

theorem RepInv.inTimeOrder (h : b.RepInv) (ht : b.ladder.Timed now) : b.InTimeOrder now := by
  intro s e he
  have hall : ∀ n ∈ e.2, Quote.of (e.1, n) ∈ b.ladder.all := fun n hn =>
    Ladder.mem_all.mpr ⟨s, mem_quotes.mpr ⟨e, he, n, hn, rfl⟩⟩
  refine ⟨?_, fun n hn => ht.entered _ (hall n hn)⟩
  have hlevel : (e.2.map fun n => Quote.of (e.1, n)).Sublist (b.ladder.side s) := by
    obtain ⟨front, rest, hsplit⟩ := List.append_of_mem he
    have hside : b.ladder.side s = quotes (b.levels s).entries := rfl
    rw [hside, hsplit, quotes, SortedMap.flatList_append, List.map_append]
    refine List.Sublist.trans ?_ (List.sublist_append_right _ _)
    change List.Sublist _ (quotes ((e.1, e.2) :: rest))
    rw [quotes_cons]
    exact List.sublist_append_left _ _
  have hordered := (h.inv.ordered s).sublist hlevel
  rw [List.pairwise_map] at hordered ⊢
  refine hordered.imp_of_mem fun {n m} hn hm hbefore => ?_
  -- within a level priority is the stamp
  have haddr : n.addr < m.addr := by
    rcases hbefore with hbetter | ⟨-, haddr⟩
    · exact absurd hbetter (irrefl_of s.better e.1)
    · exact haddr
  exact ht.stamps _ (hall n hn) _ (hall m hm) haddr

theorem trade_of_fillTrades {c : BookCore} {o : Order} {ts : Timestamp} {fs : List (Quote × Int)}
    {t : Trade} (ht : t ∈ c.fillTrades o ts fs) :
    t.matchTimestampNs = ts ∧ ∃ x ∈ fs, t.restingId = x.1.order.id := by
  have hmem := List.mem_map_of_mem (f := fun t => (t.matchTimestampNs, t.restingId)) ht
  rw [BookCore.map_fillTrades (k := fun x => (ts, x.1.order.id)) fun _ _ => rfl] at hmem
  obtain ⟨x, hx, heq⟩ := List.mem_map.mp hmem
  obtain ⟨hts, hid⟩ := Prod.mk.inj heq
  exact ⟨hts.symm, x, hx, hid.symm⟩

theorem RepInv.trade_resting (h : b.RepInv) {op : BookOp} {t : Trade}
    (ht : t ∈ (b.step op).trades) :
    t.matchTimestampNs = op.ts ∧ ∃ n ∈ b.nodes, n.val.id = t.restingId := by
  have hadd : ∀ {b : L3OrderBook} (o : Order) (ts : Timestamp), b.RepInv →
      t ∈ (b.addOrder o ts).trades → t.matchTimestampNs = ts ∧ ∃ q ∈ b.ladder.all,
        t.restingId = q.order.id := by
    intro b o ts h ht
    rw [(h.addOrder o ts).trades] at ht
    obtain ⟨hts, x, hx, hid⟩ := trade_of_fillTrades ht
    unfold Ladder.addFills at hx
    split_ifs at hx
    · cases hx
    · have hx := List.mem_of_mem_filter (h.inv.fillsOf_bounds hx).1
      exact ⟨hts, x.1, Ladder.mem_all.mpr ⟨_, hx⟩, hid⟩
  have hnode : ∀ q ∈ b.ladder.all, t.restingId = q.order.id →
      ∃ n ∈ b.nodes, n.val.id = t.restingId := by
    intro q hq hid
    obtain ⟨n, hn, -, horder⟩ := node_of_quote hq
    exact ⟨n, hn, (congrArg L3Order.id horder).trans hid.symm⟩
  cases op with
  | add o ts =>
    obtain ⟨hts, q, hq, hid⟩ := hadd o ts h ht
    exact ⟨hts, hnode q hq hid⟩
  | cancel id ts =>
    rw [L3OrderBook.step, (h.cancelOrder {} id ts).trades] at ht
    cases ht
  | replace req ts =>
    rw [L3OrderBook.step] at ht
    by_cases hhas : b.ladder.Has req.orderId
    · obtain ⟨q₀, hq₀, hid₀⟩ := hhas
      have hc := h.cancelOrder {} req.orderId ts
      rw [(h.replaceOrder_eq hq₀ hid₀ ts).2.1] at ht
      obtain ⟨hts, q, hq, hid⟩ := hadd _ ts hc.repInv ht
      rw [hc.ladder] at hq
      obtain ⟨s, hq⟩ := Ladder.mem_all.mp hq
      exact ⟨hts, hnode q (Ladder.mem_all.mpr ⟨s, List.mem_of_mem_filter hq⟩) hid⟩
    · rw [h.replaceOrder_of_not_has hhas] at ht
      cases ht

theorem entryTime_le (ht : b.ladder.Timed now) {n : ListNode L3Order} (hn : n ∈ b.nodes) :
    n.val.entryTime ≤ now := by
  obtain ⟨q, hq, -, horder⟩ := quote_of_node hn
  have hentry : n.val.entryTime = q.order.entryTime := (congrArg L3Order.entryTime horder).symm
  rw [hentry]
  exact ht.entered q hq

end L3OrderBook

end HftSdk
