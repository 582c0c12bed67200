import HftSdk.Orderbook.Levels
import HftSdk.Lib.Run

/-!
# Queue positions

The cached `queue_pos` of an order is set when it is queued and renumbered by cancels, but not when
matching takes orders off the front of its queue. `run_positions_iff` says along which runs the
positions stay exact: no matching may stop inside a level whose first order it used up, and no queue
may outgrow the 32 bits of a position.
-/

namespace HftSdk

open Sweep SortedMap

/-! ## Numbered queues -/

/-- The cached positions of a queue. -/
def positions (queue : OrderQueue) : List Nat := queue.map fun n => n.val.queuePos.toNat

/-- The cached positions are 0, 1, 2, and so on. -/
def Numbered (queue : OrderQueue) : Prop := positions queue = List.range queue.length

theorem Numbered.length_le {queue : OrderQueue} (h : Numbered queue) : queue.length ≤ 2 ^ 32 := by
  by_contra hlt
  have hmem : 2 ^ 32 ∈ positions queue := by
    rw [h, List.mem_range]
    omega
  obtain ⟨n, -, hn⟩ := List.mem_map.mp hmem
  exact absurd n.val.queuePos.toNat_lt (by omega)

theorem numbered_numberQueue {queue : OrderQueue} (h : queue.length ≤ 2 ^ 32) :
    Numbered (numberQueue queue) := by
  apply List.ext_getElem
  · simp [positions]
  · intro i hi _
    have hi : i < queue.length := by simpa [positions, numberQueue] using hi
    simp only [positions, numberQueue, List.getElem_map, List.getElem_mapIdx, List.getElem_range]
    rw [UInt32.toNat_ofNat']
    omega

theorem Numbered.suffix_iff {queue left : OrderQueue} (h : Numbered queue) {k : Nat}
    (hleft : positions left = (positions queue).drop k) :
    Numbered left ↔ left = [] ∨ left.length = queue.length := by
  have hlen : left.length = queue.length - k := by
    simpa [positions] using congrArg List.length hleft
  rw [Numbered, hleft, h, List.range_eq_range', List.drop_range', List.range_eq_range', ← hlen]
  constructor
  · intro heq
    rcases left with _ | ⟨n, left⟩
    · exact Or.inl rfl
    · have := congrArg List.head? heq
      simp [List.range'_succ] at this
      omega
  · rintro (rfl | hsame)
    · simp
    · rcases left with _ | ⟨n, left⟩
      · simp
      · have : k = 0 := by
          rw [List.length_cons] at hlen hsame
          omega
        rw [this]

theorem numbered_iff {queue : OrderQueue} :
    Numbered queue ↔
      ∀ pre n post, queue = pre ++ n :: post → n.val.queuePos.toNat = pre.length := by
  constructor
  · rintro h pre n post rfl
    have hat := congrArg (fun l => l[pre.length]?) h
    simpa [positions] using hat
  · intro h
    apply List.ext_getElem
    · simp [positions]
    · intro i hi _
      have hi : i < queue.length := by simpa [positions] using hi
      have hsplit : queue = queue.take i ++ queue[i] :: queue.drop (i + 1) := by
        rw [List.cons_getElem_drop_succ, List.take_append_drop]
      have hpos := h _ _ _ hsplit
      rw [List.length_take, min_eq_left hi.le] at hpos
      simpa [positions] using hpos

theorem Numbered.append_iff {queue : OrderQueue} (h : Numbered queue) (it : Nat) (o : L3Order) :
    Numbered (queue ++ [⟨it, { o with queuePos := .ofNat queue.length }⟩]) ↔
      queue.length < 2 ^ 32 := by
  have hpos : positions (queue ++ [⟨it, { o with queuePos := .ofNat queue.length }⟩]) =
      List.range queue.length ++ [queue.length % 2 ^ 32] := by
    unfold positions
    rw [List.map_append, ← positions, h]
    simp
  rw [Numbered, hpos, List.length_append, List.length_singleton, List.range_succ,
    List.append_cancel_left_eq]
  have hle := h.length_le
  constructor
  · intro heq
    have heq : queue.length % 2 ^ 32 = queue.length := (List.cons.inj heq).1
    omega
  · intro hlt
    rw [Nat.mod_eq_of_lt hlt]

/-! ## Matching -/

/-- What the orders of a queue have to trade. -/
def openTotal (queue : OrderQueue) : Int := (queue.map fun n => n.val.openQty).sum

/-- A demand served level by level is met inside a level, at or behind its first order. -/
def StopsInside (demand : Int) : List OrderQueue → Prop
  | [] => False
  | queue :: queues =>
    if demand < openTotal queue then ∃ n ∈ queue.head?, n.val.openQty ≤ demand
    else StopsInside (demand - openTotal queue) queues

instance decidableStopsInside (demand : Int) (queues : List OrderQueue) :
    Decidable (StopsInside demand queues) := by
  induction queues generalizing demand with
  | nil => exact inferInstanceAs (Decidable False)
  | cons queue queues ih =>
    unfold StopsInside
    have := ih (demand - openTotal queue)
    infer_instance

theorem matchQueue_positions (incoming : Order) (ts : Timestamp) (p : Int) (queue : OrderQueue)
    (c : BookCore) (demand : Int) :
    ∃ k, positions (matchQueue incoming ts p queue c demand).left = (positions queue).drop k := by
  induction queue generalizing c demand with
  | nil => exact ⟨0, rfl⟩
  | cons n queue ih =>
    by_cases h : 0 < demand
    · rw [matchQueue_cons incoming ts p n queue c h]
      dsimp only
      split_ifs with hfull
      · obtain ⟨k, hk⟩ := ih (c.settleOne (.of (p, n)) (min demand n.val.openQty))
          (demand - min demand n.val.openQty)
        exact ⟨k + 1, hk⟩
      · -- what is left of the order ends the loop
        rw [L3Order.fill_openQty] at hfull
        refine ⟨0, ?_⟩
        have hrest : (matchQueue incoming ts p queue
            (c.settleOne (.of (p, n)) (min demand n.val.openQty))
            (demand - min demand n.val.openQty)).left = queue := by
          cases queue with
          | nil => rfl
          | cons m queue => rw [matchQueue, if_neg (by omega)]
        rw [hrest, positions, List.map_cons, L3Order.fill_frame]
        rfl
    · rw [matchQueue, if_neg h]
      exact ⟨0, rfl⟩

theorem matchQueue_numbered (incoming : Order) (ts : Timestamp) (p : Int) {queue : OrderQueue}
    (hpos : ∀ n ∈ queue, 0 < n.val.openQty) (hnum : Numbered queue) (c : BookCore) {demand : Int}
    (hd : 0 < demand) :
    let r := matchQueue incoming ts p queue c demand
    (openTotal queue ≤ demand → r.left = [] ∧ r.remaining = demand - openTotal queue) ∧
      (demand < openTotal queue → r.left ≠ [] ∧ r.remaining = 0 ∧
        (Numbered r.left ↔ ∀ n ∈ queue.head?, demand < n.val.openQty)) := by
  intro r
  obtain ⟨-, hrem, -, hleft⟩ := matchQueue_isSweep incoming ts p queue c demand
  rw [List.append_nil] at hleft
  obtain ⟨k, hk⟩ := matchQueue_positions incoming ts p queue c demand
  have hposq : ∀ q ∈ queue.map (fun n => Quote.of (p, n)), 0 < q.openQty := by
    intro q hq
    obtain ⟨n, hn, rfl⟩ := List.mem_map.mp hq
    exact hpos n hn
  have htotal : total Quote.openQty (queue.map fun n => .of (p, n)) = openTotal queue := by
    simp only [total, List.map_map]
    rfl
  have hnil : r.left = [] ↔ openTotal queue ≤ demand := by
    rw [← htotal, ← residue_eq_nil_iff Quote.fill_openQty hposq hd.le, ← hleft, List.map_eq_nil_iff]
  rw [taken_fills Quote.fill_openQty hposq hd.le, htotal] at hrem
  refine ⟨fun hle => ⟨hnil.mpr hle, hrem.trans (by omega)⟩, fun hlt => ?_⟩
  have hne : r.left ≠ [] := fun h => absurd (hnil.mp h) (by omega)
  refine ⟨hne, hrem.trans (by omega), ?_⟩
  rw [hnum.suffix_iff hk, or_iff_right hne]
  have hlen := congrArg List.length hleft
  rw [List.length_map] at hlen
  rw [hlen]
  cases queue with
  | nil => exact absurd (rfl : r.left = []) hne
  | cons n queue =>
    have hn : (Quote.of (p, n)).openQty = n.val.openQty := rfl
    rw [List.map_cons]
    by_cases hfirst : demand < n.val.openQty
    · rw [residue_cons_part _ _ Quote.fill_openQty hd (hn ▸ hfirst)]
      simpa using hfirst
    · rw [residue_cons_full _ _ Quote.fill_openQty (hn ▸ hpos n List.mem_cons_self)
        (by rw [hn]; omega)]
      have hshort := (residue_map_sublist Quote.openQty Quote.fill (f := Quote.frame)
        Quote.fill_frame (demand - (Quote.of (p, n)).openQty)
        (queue.map fun n => Quote.of (p, n))).length_le
      rw [List.length_map, List.length_map, List.length_map] at hshort
      refine iff_of_false ?_ ?_
      · rw [List.length_cons]
        omega
      · simpa using hfirst

theorem not_stopsInside {queues : List OrderQueue} (hne : ∀ queue ∈ queues, queue ≠ [])
    (hpos : ∀ queue ∈ queues, ∀ n ∈ queue, 0 < n.val.openQty) {demand : Int} (hd : demand ≤ 0) :
    ¬ StopsInside demand queues := by
  cases queues with
  | nil => exact id
  | cons queue queues =>
    obtain ⟨n, tail, rfl⟩ := List.exists_cons_of_ne_nil (hne queue List.mem_cons_self)
    have hn := hpos _ List.mem_cons_self
    have htotal : 0 < openTotal (n :: tail) :=
      total_pos (fun n : ListNode L3Order => n.val.openQty) hn (List.cons_ne_nil _ _)
    rw [StopsInside, if_pos (by omega)]
    rintro ⟨m, hm, hle⟩
    obtain rfl : n = m := by simpa using hm
    have := hn n List.mem_cons_self
    omega

theorem matchLevels_numbered_iff {incoming : Order} {ts : Timestamp}
    {levels : List (Int × OrderQueue)} (hne : ∀ e ∈ levels, e.2 ≠ [])
    (hpos : ∀ e ∈ levels, ∀ n ∈ e.2, 0 < n.val.openQty) (hnum : ∀ e ∈ levels, Numbered e.2)
    (c : BookCore) (demand : Int) :
    (∀ e ∈ (matchLevels incoming ts levels c demand).left, Numbered e.2) ↔
      ¬ StopsInside demand ((levels.takeWhile fun e => !beyondLimit incoming e.1).map Prod.snd) := by
  induction levels generalizing c demand with
  | nil => exact iff_of_true hnum id
  | cons e levels ih =>
    have hne' := (List.forall_mem_cons.mp hne).2
    have hpos' := List.forall_mem_cons.mp hpos
    have hnum' := List.forall_mem_cons.mp hnum
    obtain ⟨p, queue⟩ := e
    by_cases hd : 0 < demand
    · by_cases hp : beyondLimit incoming p = true
      · rw [matchLevels, if_pos hd, if_pos hp]
        simpa [hp, StopsInside] using hnum
      · obtain ⟨hall, hpart⟩ :=
          matchQueue_numbered incoming ts p hpos'.1 hnum'.1 c hd
        have hqueues : (((p, queue) :: levels).takeWhile fun e => !beyondLimit incoming e.1).map
            Prod.snd =
              queue :: (levels.takeWhile fun e => !beyondLimit incoming e.1).map Prod.snd := by
          simp [hp]
        rw [matchLevels, if_pos hd, if_neg hp, hqueues, StopsInside]
        dsimp only
        by_cases htotal : demand < openTotal queue
        · -- the demand is met in this level, and the levels behind it are left as they are
          obtain ⟨hleft, hrem, hiff⟩ := hpart htotal
          rw [if_pos htotal, hrem, matchLevels_of_nonpos _ _ _ _ le_rfl,
            if_neg (by simpa using hleft), List.forall_mem_cons, hiff, and_iff_left hnum'.2]
          push Not
          exact Iff.rfl
        · obtain ⟨hleft, hrem⟩ := hall (not_lt.mp htotal)
          rw [if_neg htotal, hrem, hleft]
          exact ih hne' hpos'.2 hnum'.2 _ _
    · rw [matchLevels_of_nonpos _ _ _ _ (by omega)]
      refine iff_of_true hnum (not_stopsInside (fun queue hq => ?_) (fun queue hq => ?_) (by omega))
      all_goals
        obtain ⟨e, he, rfl⟩ := List.mem_map.mp hq
        have he := (List.takeWhile_sublist _).subset he
      · exact hne e he
      · exact hpos e he

theorem eraseNode_numbered {s : Side} {m : PriceLevels s} (hnum : ∀ e ∈ m.entries, Numbered e.2)
    (price : Int) (it : Nat) : ∀ e ∈ (eraseNode m price it).entries, Numbered e.2 := by
  rw [eraseNode_eq]
  cases hl : m.lookup price with
  | none => exact hnum
  | some queue =>
    dsimp only
    split_ifs
    · intro e he
      exact hnum e (List.mem_of_mem_filter he)
    · have hshort : (ListNode.unlink it queue).length ≤ 2 ^ 32 :=
        List.filter_sublist.length_le.trans (hnum _ (mem_of_lookup hl)).length_le
      intro e he
      rcases mem_assign he with ⟨he, -⟩ | rfl
      · exact hnum e he
      · exact numbered_numberQueue hshort

/-! ## The positions of a book -/

namespace L3OrderBook

variable {b : L3OrderBook}

/-- The cached positions count along every queue. -/
def NumberedQueues (b : L3OrderBook) : Prop := ∀ s, ∀ e ∈ (b.levels s).entries, Numbered e.2

/-- The position of a resting order is the number of orders ahead of it. -/
def PositionsExact (b : L3OrderBook) : Prop :=
  ∀ id ∈ b.orderIndex, (b.queuePosition id).toNat = (b.ordersAhead id).length

theorem RepInv.nodup_queue (h : b.RepInv) {s : Side} {e : Int × OrderQueue}
    (he : e ∈ (b.levels s).entries) : (e.2.map fun n => n.val.id).Nodup := by
  have hids := h.wellFormed.ids
  rw [nodes, List.map_append, List.nodup_append, List.map_flatMap, List.map_flatMap,
    List.nodup_flatMap, List.nodup_flatMap] at hids
  cases s
  · exact hids.1.1 e he
  · exact hids.2.1.1 e he

theorem RepInv.queries (h : b.RepInv) {s : Side} {e : Int × OrderQueue}
    (he : e ∈ (b.levels s).entries) {pre post : OrderQueue} {n : ListNode L3Order}
    (hqueue : e.2 = pre ++ n :: post) :
    n.val.id ∈ b.orderIndex ∧ b.queuePosition n.val.id = n.val.queuePos ∧
      b.ordersAhead n.val.id = pre.map ListNode.val := by
  have hn : n ∈ e.2 := by
    rw [hqueue]
    simp
  have hlookup : b.orderIndex.lookup n.val.id = some ⟨s, e.1, n.addr⟩ :=
    (h.lookup_iff _ _).mpr ⟨e, he, rfl, n, hn, rfl, rfl⟩
  have hnode : n ∈ b.nodes := by
    rw [nodes, List.mem_append, List.mem_flatMap, List.mem_flatMap]
    cases s
    · exact Or.inl ⟨e, he, hn⟩
    · exact Or.inr ⟨e, he, hn⟩
  refine ⟨Finmap.mem_of_lookup_eq_some hlookup, ?_, ?_⟩
  · unfold queuePosition
    simp only [hlookup]
    rw [deref, ListNode.deref_of_mem hnode h.nodup_nodes, Option.getD_some]
  · -- the walk stops at `n`, the only order of the queue with its id
    have hnodup := h.nodup_queue he
    rw [hqueue, List.map_append, List.map_cons, List.nodup_middle, List.nodup_cons,
      List.mem_append, not_or] at hnodup
    have hpre : ∀ o ∈ pre.map ListNode.val, decide (o.id ≠ n.val.id) = true := by
      intro o ho
      obtain ⟨m, hm, rfl⟩ := List.mem_map.mp ho
      exact decide_eq_true fun hid => hnodup.1.1 (hid ▸ List.mem_map_of_mem hm)
    unfold ordersAhead
    simp only [hlookup]
    rw [ordersAtPrice, queueAt_of_mem b he, hqueue, List.map_append, List.map_cons,
      List.takeWhile_append_of_pos hpre, List.takeWhile_cons_of_neg (by simp), List.append_nil]

theorem RepInv.positionsExact_iff (h : b.RepInv) : b.PositionsExact ↔ b.NumberedQueues := by
  constructor
  · intro hexact s e he
    rw [numbered_iff]
    intro pre n post hqueue
    obtain ⟨hid, hpos, hahead⟩ := h.queries he hqueue
    have := hexact _ hid
    rwa [hpos, hahead, List.length_map] at this
  · intro hnum id hid
    obtain ⟨loc, hloc⟩ := Finmap.mem_iff.mp hid
    obtain ⟨e, he, -, n, hn, -, rfl⟩ := (h.lookup_iff _ _).mp hloc
    obtain ⟨pre, post, hqueue⟩ := List.append_of_mem hn
    obtain ⟨-, hpos, hahead⟩ := h.queries he hqueue
    rw [hpos, hahead, List.length_map]
    exact numbered_iff.mp (hnum _ e he) pre n post hqueue

/-- What an order asks for: nothing when it is fill-or-kill and cannot be filled. -/
def wantedQty (b : L3OrderBook) (o : Order) : Int :=
  if o.tif = .fok ∧ b.tradableQty o < o.quantity then 0 else o.quantity

/-- The queues an order may trade with, best first. -/
def queuesFacing (b : L3OrderBook) (o : Order) : List OrderQueue :=
  ((b.levels o.side.opp).entries.takeWhile fun e => !beyondLimit o e.1).map Prod.snd

/-- Matching the order does not stop inside a level whose first order it used up, and a queue that
takes its remainder has a position left for it. -/
def KeepsNumbers (b : L3OrderBook) (o : Order) : Prop :=
  ¬ StopsInside (b.wantedQty o) (b.queuesFacing o) ∧
    (b.tradableQty o < o.quantity → o.type = .limit → o.tif = .day ∨ o.tif = .gtc →
      ((b.ordersAtPrice o.side o.price).filter fun r => r.id ≠ o.id).length < 2 ^ 32)

instance (b : L3OrderBook) (o : Order) : Decidable (b.KeepsNumbers o) :=
  inferInstanceAs (Decidable (_ ∧ _))

/-- A call keeps the positions exact: a cancel always, a submission under an id that rests, and
otherwise when the order keeps the numbers. -/
def KeepsPositions (b : L3OrderBook) : BookOp → Prop
  | .add o _ => o.id ∉ b.orderIndex → b.KeepsNumbers o
  | .cancel _ _ => True
  | .replace req ts => ∀ loc, b.orderIndex.lookup req.orderId = some loc →
      b.KeepsNumbers (replacement req loc.side ts)

/-! ## One call -/

theorem RepInv.mem_index_of_queueAt (h : b.RepInv) {s : Side} {p : Int} {n : ListNode L3Order}
    (hn : n ∈ b.queueAt s p) : n.val.id ∈ b.orderIndex := by
  have hq := List.mem_map_of_mem (f := fun n => Quote.of (p, n)) hn
  rw [queueAt_quotes] at hq
  exact (h.mem_index _).mpr ⟨_, Ladder.mem_all.mpr ⟨s, List.mem_of_mem_filter hq⟩, rfl⟩

theorem numberedQueues_iff (b : L3OrderBook) (s : Side) :
    b.NumberedQueues ↔ (∀ e ∈ (b.levels s.opp).entries, Numbered e.2) ∧
      ∀ e ∈ (b.levels s).entries, Numbered e.2 := by
  refine ⟨fun h => ⟨h s.opp, h s⟩, fun ⟨hopp, hside⟩ t => ?_⟩
  obtain rfl | rfl := s.eq_or_eq_opp t
  · exact hside
  · exact hopp

theorem RepInv.addOrder_numbered_iff (h : b.RepInv) (hnum : b.NumberedQueues) {o : Order}
    (hid : o.id ∉ b.orderIndex) (ts : Timestamp) :
    (b.addOrder o ts).book.NumberedQueues ↔ b.KeepsNumbers o := by
  obtain ⟨hopp, hside⟩ := h.addOrder_levels (mt (h.mem_index o.id).mpr hid) ts
  have hwanted : b.ladder.demand o = b.wantedQty o := by rw [wantedQty, tradableQty_eq]; rfl
  have hpos : ∀ e ∈ (b.levels o.side.opp).entries, ∀ n ∈ e.2, 0 < n.val.openQty :=
    fun e he n hn => (h.soundOrder he hn).pos
  rw [numberedQueues_iff _ o.side, hopp, hside, hwanted,
    matchLevels_numbered_iff (h.nonempty _) hpos (hnum _)]
  refine and_congr Iff.rfl ?_
  have hrests : b.ladder.Rests o ↔
      b.tradableQty o < o.quantity ∧ o.type = .limit ∧ (o.tif = .day ∨ o.tif = .gtc) := by
    rw [tradableQty_eq, ← h.inv.remainder_pos_iff]
    exact Iff.rfl
  split_ifs with hr
  · obtain ⟨hq, htype, htif⟩ := hrests.mp hr
    have hothers : (b.ordersAtPrice o.side o.price).filter (fun r => r.id ≠ o.id) =
        b.ordersAtPrice o.side o.price := by
      refine List.filter_eq_self.mpr fun r hr => decide_eq_true fun hrid => hid ?_
      obtain ⟨n, hn, rfl⟩ := List.mem_map.mp hr
      exact hrid ▸ h.mem_index_of_queueAt hn
    have hqueue : Numbered (b.queueAt o.side o.price) := by
      rw [queueAt_eq]
      cases hl : (b.levels o.side).lookup o.price with
      | none => exact rfl
      | some queue => exact hnum _ _ (mem_of_lookup hl)
    rw [hothers, ordersAtPrice, List.length_map, ← hqueue.append_iff b.nextAddr, queueAt_eq]
    constructor
    · intro hall _ _ _
      exact hall _ (mem_upsert.mpr (Or.inr rfl))
    · intro hnew e he
      rcases mem_upsert.mp he with ⟨he, -⟩ | rfl
      · exact hnum _ e he
      · exact hnew hq htype htif
  · refine iff_of_true (hnum o.side) fun hq htype htif => ?_
    exact absurd (hrests.mpr ⟨hq, htype, htif⟩) hr

theorem RepInv.cancelOrder_numbered (h : b.RepInv) (hnum : b.NumberedQueues) (id : OrderId)
    (ts : Timestamp) : (b.cancelOrder id ts).book.NumberedQueues := by
  by_cases hid : b.ladder.Has id
  · obtain ⟨q, hq, rfl⟩ := hid
    obtain ⟨hside, hopp⟩ := h.cancelOrder_levels hq ts
    rw [numberedQueues_iff _ q.order.side, hside, hopp]
    exact ⟨hnum _, eraseNode_numbered (hnum _) _ _⟩
  · rwa [h.cancelOrder_of_not_has hid]

theorem RepInv.keepsNumbers_cancel (h : b.RepInv) {q : Quote} (hq : q ∈ b.ladder.all)
    {o : Order} (hid : o.id = q.order.id) (hside : o.side = q.order.side) (ts : Timestamp) :
    (b.cancelOrder q.order.id ts).book.KeepsNumbers o ↔ b.KeepsNumbers o := by
  have hopp := (h.cancelOrder_levels hq ts).2
  rw [← hside] at hopp
  have htradable : (b.cancelOrder q.order.id ts).book.tradableQty o = b.tradableQty o := by
    rw [tradableQty, hopp, tradableQty]
  have hqueues : (b.cancelOrder q.order.id ts).book.queuesFacing o = b.queuesFacing o := by
    rw [queuesFacing, hopp, queuesFacing]
  -- the orders at a price but for those with the canceled id
  have hothers : ∀ b : L3OrderBook,
      ((b.ordersAtPrice o.side o.price).filter fun r => r.id ≠ o.id).length =
        ((b.ladder.side o.side).filter fun r => r.price = o.price ∧ r.order.id ≠ o.id).length := by
    intro b
    have hquotes := congrArg (List.filter fun r : Quote => r.order.id ≠ o.id)
      (b.queueAt_quotes o.side o.price)
    rw [List.filter_filter, List.filter_map] at hquotes
    have hlen := congrArg List.length hquotes
    rw [List.length_map] at hlen
    rw [ordersAtPrice, List.filter_map, List.length_map]
    refine hlen.trans (congrArg List.length (List.filter_congr fun r _ => ?_))
    rw [Bool.decide_and, Bool.and_comm]
  rw [KeepsNumbers, KeepsNumbers, wantedQty, wantedQty, htradable, hqueues, hothers, hothers,
    (h.cancelOrder {} q.order.id ts).ladder]
  unfold Ladder.cancel
  rw [List.filter_filter, hid]
  simp only [Bool.decide_and, Bool.and_assoc, Bool.and_self]

/-- **A call keeps the positions exact** exactly when its order keeps the numbers. -/
theorem RepInv.step_numbered_iff (h : b.RepInv) (hnum : b.NumberedQueues) (op : BookOp) :
    (b.step op).book.NumberedQueues ↔ b.KeepsPositions op := by
  cases op with
  | add o ts =>
    by_cases hid : o.id ∈ b.orderIndex
    · rw [L3OrderBook.step, h.addOrder_of_has ((h.mem_index _).mp hid)]
      exact iff_of_true hnum fun hnot => absurd hid hnot
    · rw [L3OrderBook.step, h.addOrder_numbered_iff hnum hid]
      exact ⟨fun hkeep _ => hkeep, fun hkeep => hkeep hid⟩
  | cancel id ts => exact iff_of_true (h.cancelOrder_numbered hnum id ts) trivial
  | replace req ts =>
    rw [L3OrderBook.step, KeepsPositions]
    cases hloc : b.orderIndex.lookup req.orderId with
    | none =>
      rw [h.replaceOrder_of_not_has (h.not_has_of_lookup hloc)]
      exact iff_of_true hnum fun _ hl => absurd hl (Option.some_ne_none _).symm
    | some loc =>
      obtain ⟨q, hq, hqid, hside⟩ := h.exists_of_lookup hloc
      have hc := h.cancelOrder {} q.order.id ts
      have hnot : req.orderId ∉ (b.cancelOrder q.order.id ts).book.orderIndex := by
        rw [hc.repInv.mem_index, hc.ladder, ← hqid]
        exact Ladder.not_has_cancel _ _
      rw [(h.replaceOrder_eq hq hqid ts).1, ← hqid,
        hc.repInv.addOrder_numbered_iff (h.cancelOrder_numbered hnum _ ts) hnot,
        h.keepsNumbers_cancel hq hqid.symm rfl]
      constructor
      · rintro hkeep loc' hloc'
        obtain rfl := Option.some_inj.mp hloc'
        rw [← hside]
        exact hkeep
      · intro hkeep
        rw [hside]
        exact hkeep loc rfl

/-! ## Runs -/

/-- **When positions are exact**: along a run the position of every resting order is the number of
orders ahead of it, and the positions of a queue are 0, 1, 2, and so on, exactly when every order
keeps the numbers. -/
theorem run_positions_iff (symbol : Symbol) (ops : List BookOp) :
    Run.Along (fun b op => (step b op).book)
        (fun b op => (b.step op).book.PositionsExact ∧ (b.step op).book.NumberedQueues)
        (create symbol) ops ↔
      Run.Along (fun b op => (step b op).book) KeepsPositions (create symbol) ops := by
  have hiff : ∀ (b : L3OrderBook) (op : BookOp), b.RepInv ∧ b.NumberedQueues →
      ((b.step op).book.PositionsExact ∧ (b.step op).book.NumberedQueues ↔ b.KeepsPositions op) := by
    rintro b op ⟨h, hnum⟩
    rw [(h.step op).2.positionsExact_iff, and_self, h.step_numbered_iff hnum]
  refine Run.along_congr (I := fun b => b.RepInv ∧ b.NumberedQueues) hiff ?_ ?_
  · rintro b op ⟨h, hnum⟩ hkeep
    exact ⟨(h.step op).2, (h.step_numbered_iff hnum op).mpr hkeep⟩
  · refine ⟨repInv_create symbol, fun s e he => ?_⟩
    cases s <;> exact absurd he List.not_mem_nil

/-- Two asks at one price, of which a buy order takes the first: the second is now the first of its
queue and still says that it is the second. -/
theorem run_positions_stale :
    ¬ ∀ (symbol : Symbol) (ops : List BookOp), ((create symbol).run ops).PositionsExact := by
  intro h
  have hstale := h {}
    [.add { id := 1, side := .sell, price := 10, quantity := 5 } 0,
      .add { id := 2, side := .sell, price := 10, quantity := 5 } 0,
      .add { id := 3, side := .buy, price := 10, quantity := 5 } 0] 2 (by decide)
  revert hstale
  decide

end L3OrderBook

end HftSdk
