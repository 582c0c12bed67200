import HftSdk.Lib.Spacing
import HftSdk.Market.Throttle

/-!
# The rate of updates

The throttle neither floods a subscriber nor leaves him behind. While the clock does not run
backwards, the updates of a symbol that it lets through are an interval apart, so that a window of
any width holds only so many of them; and every update that it drops comes less than an interval
after one that it let through (`update_rate`).
-/

namespace HftSdk

namespace MarketDataEngine

theorem add_le_of_not_lt {t now interval : Timestamp} (hle : t ≤ now) (h : ¬ now - t < interval) :
    t.toNat + interval.toNat ≤ now.toNat := by
  rw [UInt64.not_lt, UInt64.le_iff_toNat_le, UInt64.toNat_sub_of_le _ _ hle] at h
  have hle := UInt64.le_iff_toNat_le.mp hle
  omega

theorem accepted_spaced {e : MarketDataEngine} (he : e.lastPublishTime = ∅) (hN : e.throttleNs ≠ 0)
    (s : Symbol) {calls : List MDCall}
    (hclock : (calls.filterMap MDCall.reading?).Pairwise (· ≤ ·)) :
    (e.accepted (MDCall.about s) calls).Pairwise fun t t' =>
      t.toNat + e.throttleNs.toNat ≤ t'.toNat := by
  induction calls using List.reverseRecOn with
  | nil => exact List.Pairwise.nil
  | append_singleton front c ih =>
    have hfront : (front.filterMap MDCall.reading?).Pairwise (· ≤ ·) := by
      rw [List.filterMap_append, List.pairwise_append] at hclock
      exact hclock.1
    rw [accepted_concat]
    cases hpassed : (e.run front).passed (MDCall.about s) c with
    | none =>
      rw [Option.toList_none, List.append_nil]
      exact ih hfront
    | some now =>
      unfold passed at hpassed
      split_ifs at hpassed with hthrough
      obtain ⟨now', hc⟩ := checked_of_about hthrough.1
      rw [hc, Option.map_some, Option.some_inj] at hpassed
      subst hpassed
      have hkept := mt (throttles_run_iff he hN hc hclock).mpr (by simp [hthrough.2])
      have hreading : c.reading? = some now' := by
        cases c <;> simp_all [MDCall.checked?, MDCall.reading?]
      rw [List.filterMap_append, List.filterMap_cons, hreading, List.pairwise_append] at hclock
      refine List.pairwise_append.mpr ⟨ih hfront, List.pairwise_singleton _ _, ?_⟩
      intro t ht t' ht'
      rw [Option.toList_some, List.mem_singleton] at ht'
      rw [ht']
      refine add_le_of_not_lt ?_ fun hnear => hkept ⟨t, ht, hnear⟩
      exact hclock.2.2 t ((e.accepted_sublist _ front).subset ht) now' List.mem_cons_self

/-- **The throttle neither floods nor starves.** Of the updates of a symbol no more get through in a
window of time than its intervals pay for, and none is dropped but shortly after one that got
through. -/
theorem update_rate {interval : UInt64} (hN : interval ≠ 0)
    (l1Handlers l2Handlers tradeHandlers : Nat) (calls : List MDCall)
    (hclock : (calls.filterMap MDCall.reading?).Pairwise (· ≤ ·)) (s : Symbol) :
    (∀ t w : Nat, (((configured interval l1Handlers l2Handlers tradeHandlers).accepted
        (MDCall.about s) calls).filter fun a => t ≤ a.toNat ∧ a.toNat ≤ t + w).length ≤
          w / interval.toNat + 1) ∧
    ∀ front c rest now, calls = front ++ c :: rest → c.checked? = some (s, now) →
      ((configured interval l1Handlers l2Handlers tradeHandlers).run front).throttles c = true →
      ∃ t ∈ (configured interval l1Handlers l2Handlers tradeHandlers).accepted (MDCall.about s) front,
        now - t < interval := by
  set e := configured interval l1Handlers l2Handlers tradeHandlers
  have hpos : 0 < interval.toNat := by
    rw [Nat.pos_iff_ne_zero]
    exact fun h => hN (UInt64.toNat_inj.mp h)
  refine ⟨fun t w => ?_, fun front c rest now hcalls hc hdropped => ?_⟩
  · have hspaced : (((e.accepted (MDCall.about s) calls).filter fun a =>
        t ≤ a.toNat ∧ a.toNat ≤ t + w).map UInt64.toNat).Pairwise fun a b => a + interval.toNat ≤ b :=
      List.pairwise_map.mpr ((accepted_spaced (e := e) rfl hN s hclock).filter _)
    rw [← List.length_map (f := UInt64.toNat)]
    refine Spacing.length_le hpos hspaced t w fun a ha => ?_
    obtain ⟨x, hx, rfl⟩ := List.mem_map.mp ha
    exact of_decide_eq_true (List.mem_filter.mp hx).2
  · rw [hcalls, List.append_cons, List.filterMap_append] at hclock
    exact (throttles_run_iff (e := e) rfl hN hc (List.pairwise_append.mp hclock).1).mp hdropped

/-- Of three updates the second is dropped. -/
theorem update_rate_three :
    (∀ t w : Nat, (((configured 10 1 1 0).accepted (MDCall.about {})
        [.onTobUpdate {} 5, .onDepthUpdate {} 6, .onTobUpdate {} 20]).filter fun a =>
          t ≤ a.toNat ∧ a.toNat ≤ t + w).length ≤ w / 10 + 1) ∧
    ∀ front c rest now,
      [.onTobUpdate {} 5, .onDepthUpdate {} 6, .onTobUpdate {} 20] = front ++ c :: rest →
      c.checked? = some ({}, now) → ((configured 10 1 1 0).run front).throttles c = true →
      ∃ t ∈ (configured 10 1 1 0).accepted (MDCall.about {}) front, now - t < 10 :=
  update_rate (by decide) 1 1 0 _ (by decide) {}

end MarketDataEngine

end HftSdk
