import HftSdk.Orderbook.Refinement

/-!
# Invariants of the book

What `RepInv` says about the code's own structures: `WellFormed` spells it out level by level and
node by node, and it holds after every run from the empty book, as does `Uncrossed`.
-/

namespace HftSdk

open SortedMap

theorem mem_quotes {levels : List (Int × OrderQueue)} {q : Quote} :
    q ∈ quotes levels ↔ ∃ e ∈ levels, ∃ n ∈ e.2, Quote.of (e.1, n) = q := by
  simp only [quotes, flatList, List.mem_map, List.mem_flatMap]
  constructor
  · rintro ⟨_, ⟨e, he, n, hn, rfl⟩, rfl⟩
    exact ⟨e, he, n, hn, rfl⟩
  · rintro ⟨e, he, n, hn, rfl⟩
    exact ⟨_, ⟨e, he, n, hn, rfl⟩, rfl⟩

theorem length_quotes (levels : List (Int × OrderQueue)) :
    (quotes levels).length = (levels.map fun e => e.2.length).sum := by
  simp [quotes, flatList, List.length_flatMap]

namespace L3OrderBook

/-- An order that may stand at a price level. -/
structure SoundOrder (s : Side) (price : Int) (o : L3Order) : Prop where
  side : o.side = s
  price : o.price = price
  visible : 0 ≤ o.visibleQty
  hidden : 0 ≤ o.hiddenQty
  pos : 0 < o.visibleQty + o.hiddenQty

/-- The redundant structures of the book agree. -/
structure WellFormed (b : L3OrderBook) : Prop where
  /-- No level has an empty queue. -/
  nonempty : ∀ s, ∀ e ∈ (b.levels s).entries, e.2 ≠ []
  /-- Every order stands on its side, at its price, with something to trade. -/
  sound : ∀ s, ∀ e ∈ (b.levels s).entries, ∀ n ∈ e.2, SoundOrder s e.1 n.val
  /-- No id occurs twice. -/
  ids : (b.nodes.map fun n => n.val.id).Nodup
  /-- No two orders share a list node. -/
  addrs : (b.nodes.map ListNode.addr).Nodup
  /-- The index has the resting ids, each with its order's side, price and list node. -/
  index : ∀ id loc, b.orderIndex.lookup id = some loc ↔
    ∃ e ∈ (b.levels loc.side).entries, e.1 = loc.price ∧ ∃ n ∈ e.2, n.addr = loc.it ∧ n.val.id = id
  /-- The counters count. -/
  bidCount : b.bidOrderCount = (b.bids.entries.map fun e => e.2.length).sum
  askCount : b.askOrderCount = (b.asks.entries.map fun e => e.2.length).sum

/-- Every resting bid is below every resting ask. -/
def Uncrossed (b : L3OrderBook) : Prop :=
  ∀ e ∈ b.bids.entries, ∀ n ∈ e.2, ∀ e' ∈ b.asks.entries, ∀ n' ∈ e'.2,
    e.1 < e'.1 ∧ n.val.price < n'.val.price

variable {b : L3OrderBook}

theorem RepInv.soundOrder (h : b.RepInv) {s : Side} {e : Int × OrderQueue}
    (he : e ∈ (b.levels s).entries) {n : ListNode L3Order} (hn : n ∈ e.2) :
    SoundOrder s e.1 n.val := by
  obtain ⟨hs, hp, hv, hh, hpos⟩ := h.inv.sound s (.of (e.1, n)) (mem_quotes.mpr ⟨e, he, n, hn, rfl⟩)
  exact ⟨hs, hp, hv, hh, hpos⟩

theorem RepInv.orderCount_eq (h : b.RepInv) (s : Side) :
    b.orderCount s = ((b.levels s).entries.map fun e => e.2.length).sum := by
  have hside : (b.ladder.side s).countP (fun q => q.order.side = s) = (b.ladder.side s).length :=
    List.countP_eq_length.mpr fun q hq => decide_eq_true (h.inv.sound _ q hq).side
  have hopp : (b.ladder.side s.opp).countP (fun q => q.order.side = s) = 0 :=
    List.countP_eq_zero.mpr fun q hq => by simp [(h.inv.sound _ q hq).side]
  rw [h.tracks.count, (Ladder.all_perm b.ladder s).countP_eq, List.countP_append, hside, hopp,
    Nat.add_zero, ← length_quotes]
  rfl

theorem RepInv.lookup_iff (h : b.RepInv) (id : OrderId) (loc : OrderLocation) :
    b.orderIndex.lookup id = some loc ↔
      ∃ e ∈ (b.levels loc.side).entries, e.1 = loc.price ∧
        ∃ n ∈ e.2, n.addr = loc.it ∧ n.val.id = id := by
  rw [h.tracks.index.lookup, List.mem_map]
  constructor
  · rintro ⟨q, hq, hentry⟩
    have hq := h.inv.side_eq hq
    rw [Quote.entry, Prod.mk.injEq] at hentry
    obtain ⟨rfl, rfl⟩ := hentry
    obtain ⟨e, he, n, hn, rfl⟩ := mem_quotes.mp hq
    exact ⟨e, he, rfl, n, hn, rfl, rfl⟩
  · rintro ⟨e, he, hp, n, hn, haddr, rfl⟩
    refine ⟨.of (e.1, n), Ladder.mem_all.mpr ⟨_, mem_quotes.mpr ⟨e, he, n, hn, rfl⟩⟩, ?_⟩
    obtain ⟨s, p, it⟩ := loc
    obtain rfl : e.1 = p := hp
    obtain rfl : n.addr = it := haddr
    obtain rfl : n.val.side = s := (h.soundOrder he hn).side
    rfl

theorem RepInv.wellFormed (h : b.RepInv) : b.WellFormed where
  nonempty := h.nonempty
  sound _ _ he _ hn := h.soundOrder he hn
  ids := by
    have := congrArg (List.map fun x : Nat × L3Order => x.2.id) b.nodes_eq
    rw [List.map_map, List.map_map] at this
    exact this ▸ h.inv.ids
  addrs := h.nodup_nodes
  index := h.lookup_iff
  bidCount := h.orderCount_eq .buy
  askCount := h.orderCount_eq .sell

/-- **The representation invariant**: whatever is submitted, canceled and replaced, the levels, the
index and the counters agree. -/
theorem run_wellFormed (symbol : Symbol) (ops : List BookOp) : ((create symbol).run ops).WellFormed :=
  ((repInv_create symbol).run ops).2.wellFormed

/-- **The book is never crossed or locked.** -/
theorem run_uncrossed (symbol : Symbol) (ops : List BookOp) : ((create symbol).run ops).Uncrossed := by
  intro e he n hn e' he' n' hn'
  have h := ((repInv_create symbol).run ops).2
  have hlt : e.1 < e'.1 := h.inv.uncrossed (.of (e.1, n)) (mem_quotes.mpr ⟨e, he, n, hn, rfl⟩)
    (.of (e'.1, n')) (mem_quotes.mpr ⟨e', he', n', hn', rfl⟩)
  refine ⟨hlt, ?_⟩
  rwa [(h.soundOrder (s := .buy) he hn).price, (h.soundOrder (s := .sell) he' hn').price]

end L3OrderBook

end HftSdk
