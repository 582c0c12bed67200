import HftSdk.Concurrency.MemoryPool
import HftSdk.Lib.Amortized

/-!
# The memory pool is lock-free

A compare-exchange that fails sends a thread back to the head it has found, in `allocate` and in
`deallocate` alike, and nothing bounds how often. But it fails for no reason, or because of a thread
whose compare-exchange went through in between, and that thread is about to return. `lock_free`
bounds the work of all threads in any part of any run by the calls that return in it; so however the
steps interleave, some call returns. `retries_le` bounds what one thread has to repeat by what the
others achieve.

Nothing here depends on the free list being one: the bounds hold from any state.
-/

namespace HftSdk

namespace MemoryPool

variable {capacity : Nat} {τ : Type} [DecidableEq τ]

/-! ## What a run is charged with -/

/-- The thread that takes a step. -/
def Action.thread : Action capacity τ → τ
  | .allocate t => t
  | .deallocate t _ => t
  | .advance t _ => t

/-- A step inside a call. -/
def works (s : MemoryPool capacity τ) : Action capacity τ → Nat
  | .advance t _ => if s.threads t = .idle then 0 else 1
  | _ => 0

/-- A call returns. -/
def returns (s : MemoryPool capacity τ) (a : Action capacity τ) : Nat :=
  if s.threads a.thread ≠ .idle ∧ (s.step a).threads a.thread = .idle then 1 else 0

/-- The head that a thread's next compare-exchange expects. -/
def Thread.expects? : Thread capacity → Option UInt32
  | .allocExchange head _ => some (indexOf head)
  | .freeExchange _ head => some head
  | _ => none

/-- A compare-exchange that goes through. -/
def exchanges (s : MemoryPool capacity τ) : Action capacity τ → Nat
  | .advance t false => if (s.threads t).expects? = some s.free_head_ then 1 else 0
  | _ => 0

/-- A compare-exchange that fails for no reason. -/
def misfires (s : MemoryPool capacity τ) : Action capacity τ → Nat
  | .advance t true => if (s.threads t).expects? = some s.free_head_ then 1 else 0
  | _ => 0

/-- A compare-exchange that fails, since the head is another one. -/
def retries (s : MemoryPool capacity τ) : Action capacity τ → Nat
  | .advance t _ =>
    match (s.threads t).expects? with
    | some head => if head = s.free_head_ then 0 else 1
    | none => 0
  | _ => 0

/-! ## One step -/

/-- The head that a thread goes on with. -/
def Thread.head? : Thread capacity → Option UInt32
  | .allocRead head | .allocExchange head _ => some (indexOf head)
  | .freeWrite _ head | .freeExchange _ head => some head
  | _ => none

/-- The head that a thread goes on with is not the head any more. -/
def Thread.Stale (th : Thread capacity) (head : UInt32) : Prop := ∃ h ∈ th.head?, h ≠ head

instance (th : Thread capacity) (head : UInt32) : Decidable (th.Stale head) :=
  inferInstanceAs (Decidable (∃ h ∈ th.head?, h ≠ head))

theorem threads_of_ne (s : MemoryPool capacity τ) (a : Action capacity τ) {t : τ}
    (ht : t ≠ a.thread) : (s.step a).threads t = s.threads t := by
  cases a with
  | allocate t' =>
    unfold step
    dsimp only
    split_ifs
    · exact Function.update_of_ne ht _ _
    · rfl
  | deallocate t' slot =>
    unfold step
    dsimp only
    split_ifs
    · exact Function.update_of_ne ht _ _
    · rfl
  | advance t' spurious =>
    change (s.advance t' spurious).threads t = _
    unfold advance
    cases s.threads t' with
    | idle => rfl
    | allocExchange | freeExchange =>
      dsimp only
      split_ifs <;> exact Function.update_of_ne ht _ _
    | _ => exact Function.update_of_ne ht _ _

theorem head?_tested (head : UInt32) {h : UInt32}
    (hh : h ∈ (tested head : Thread capacity).head?) : h = head := by
  unfold tested at hh
  cases hslot : slotOf capacity head with
  | none =>
    rw [hslot] at hh
    cases hh
  | some slot =>
    rw [hslot] at hh
    obtain rfl := Option.some_inj.mp hh
    unfold slotOf at hslot
    split_ifs at hslot with hlt
    obtain rfl := Option.some_inj.mp hslot
    exact UInt32.ofNat_toNat

theorem not_stale_tested (head : UInt32) : ¬ (tested head : Thread capacity).Stale head := by
  rintro ⟨h, hh, hne⟩
  exact hne (head?_tested head hh)

theorem not_stale_freeWrite (slot : Fin capacity) (head : UInt32) :
    ¬ (Thread.freeWrite slot head).Stale head := by
  rintro ⟨h, hh, hne⟩
  exact hne (Option.some_inj.mp hh).symm

/-- How many steps a thread has before it until it returns, when no compare-exchange fails. -/
def Thread.phase : Thread capacity → Nat
  | .idle => 0
  | .allocLoad | .freeLoad _ => 4
  | .allocRead _ | .freeWrite _ _ => 3
  | .allocExchange _ _ | .freeExchange _ _ => 2
  | .allocDone _ | .freeDone => 1

theorem phase_tested_le (head : UInt32) : (tested head : Thread capacity).phase ≤ 3 := by
  unfold tested
  cases slotOf capacity head <;> simp [Thread.phase]

/-- **What a step inside a call can do**: it exchanges the head, or gets the head of now, for the
first time or because the compare-exchange has failed, or moves on with the head that it has. -/
inductive Advances (s : MemoryPool capacity τ) (spurious : Bool) (th th' : Thread capacity)
    (head' : UInt32) : Prop
  | exchange (hexpects : th.expects? = some s.free_head_) (hgenuine : spurious = false)
      (hphase : th'.phase = 1) (hhead : th'.head? = none)
  | load (hsame : head' = s.free_head_) (hphase : th.phase = 4) (hhead : th.head? = none)
      (hfresh : ¬ th'.Stale s.free_head_) (hphase' : th'.phase ≤ 3)
  | fail {head : UInt32} (hsame : head' = s.free_head_) (hexpects : th.expects? = some head)
      (hfails : head = s.free_head_ → spurious = true) (hfresh : ¬ th'.Stale s.free_head_)
      (hphase' : th'.phase ≤ 3)
  | move (hsame : head' = s.free_head_) (hexpects : th.expects? = none)
      (hhead : th'.head? = th.head?) (hphase : th'.phase + 1 = th.phase)

theorem advance_idle (s : MemoryPool capacity τ) {t : τ} (spurious : Bool)
    (ht : s.threads t = .idle) : s.advance t spurious = s := by
  unfold advance
  rw [ht]

theorem advance_cases (s : MemoryPool capacity τ) {t : τ} (spurious : Bool)
    (ht : s.threads t ≠ .idle) :
    Advances s spurious (s.threads t) ((s.advance t spurious).threads t)
      (s.advance t spurious).free_head_ := by
  have hself : ∀ th, (s.setThread t th).threads t = th := fun th => Function.update_self ..
  have hfresh : ¬ (tested s.free_head_ : Thread capacity).Stale s.free_head_ := not_stale_tested _
  have hphase : (tested s.free_head_ : Thread capacity).phase ≤ 3 := phase_tested_le _
  have hfails : ∀ {head}, ¬ (s.free_head_ = head ∧ spurious = false) → head = s.free_head_ →
      spurious = true := by
    intro head hcas hhead
    by_contra hspurious
    exact hcas ⟨hhead.symm, Bool.eq_false_of_not_eq_true hspurious⟩
  unfold advance
  cases hth : s.threads t with
  | idle => exact absurd hth ht
  | allocLoad => exact .load rfl rfl rfl ((hself _).symm ▸ hfresh) ((hself _).symm ▸ hphase)
  | allocExchange head next =>
    dsimp only
    split_ifs with hcas
    · have hexpects : (Thread.allocExchange head next).expects? = some s.free_head_ :=
        congrArg some hcas.1.symm
      exact .exchange hexpects hcas.2 (congrArg Thread.phase (hself _))
        (congrArg Thread.head? (hself _))
    · exact .fail rfl rfl (hfails hcas) ((hself _).symm ▸ hfresh) ((hself _).symm ▸ hphase)
  | freeLoad slot =>
    exact .load rfl rfl rfl ((hself _).symm ▸ not_stale_freeWrite slot _)
      (congrArg Thread.phase (hself _)).le
  | freeExchange slot head =>
    dsimp only
    split_ifs with hcas
    · have hexpects : (Thread.freeExchange slot head).expects? = some s.free_head_ :=
        congrArg some hcas.1.symm
      exact .exchange hexpects hcas.2 (congrArg Thread.phase (hself _))
        (congrArg Thread.head? (hself _))
    · exact .fail rfl rfl (hfails hcas) ((hself _).symm ▸ not_stale_freeWrite slot _)
        (congrArg Thread.phase (hself _)).le
  | allocRead | allocDone | freeWrite | freeDone =>
    refine .move rfl rfl ?_ ?_
    · exact (congrArg Thread.head? (hself _)).trans rfl
    · exact (congrArg (fun th => th.phase + 1) (hself _)).trans rfl

theorem head?_of_expects {th : Thread capacity} {head : UInt32} (h : th.expects? = some head) :
    th.head? = some head ∧ th.phase = 2 := by
  cases th with
  | allocExchange | freeExchange => exact ⟨h, rfl⟩
  | _ => cases h

theorem expects?_of_head? {th : Thread capacity} (h : th.head? = none) : th.expects? = none := by
  cases th with
  | allocExchange | freeExchange => cases h
  | _ => rfl

omit [DecidableEq τ] in
theorem exchanges_of_ne_idle {s : MemoryPool capacity τ} {t : τ} {spurious : Bool} {th th' head'}
    (hth : s.threads t = th) (h : Advances s spurious th th' head') :
    s.exchanges (.advance t spurious) = 0 ∧ head' = s.free_head_ ∨
      s.exchanges (.advance t spurious) = 1 ∧ th'.phase = 1 ∧ th.expects? = some s.free_head_ := by
  have hone : th.expects? = some s.free_head_ → spurious = false →
      s.exchanges (.advance t spurious) = 1 := by
    rintro hexpects rfl
    exact if_pos (hth ▸ hexpects)
  have hzero : (th.expects? = some s.free_head_ → spurious = true) →
      s.exchanges (.advance t spurious) = 0 := by
    intro hspurious
    cases spurious with
    | true => rfl
    | false => exact if_neg fun hexpects => Bool.false_ne_true (hspurious (hth ▸ hexpects))
  cases h with
  | exchange hexpects hgenuine hphase hhead => exact .inr ⟨hone hexpects hgenuine, hphase, hexpects⟩
  | load hsame hphase hhead =>
    refine .inl ⟨hzero fun hexpects => ?_, hsame⟩
    rw [expects?_of_head? hhead] at hexpects
    cases hexpects
  | fail hsame hexpects hfails =>
    refine .inl ⟨hzero fun hexpects' => hfails ?_, hsame⟩
    exact Option.some_inj.mp (hexpects.symm.trans hexpects')
  | move hsame hexpects =>
    refine .inl ⟨hzero fun hexpects' => ?_, hsame⟩
    rw [hexpects] at hexpects'
    cases hexpects'

theorem begin_cases (s : MemoryPool capacity τ) (a : Action capacity τ)
    (ha : ∀ t spurious, a ≠ .advance t spurious) :
    s.works a = 0 ∧ s.exchanges a = 0 ∧ s.retries a = 0 ∧ (s.step a).free_head_ = s.free_head_ ∧
      ((s.step a).threads a.thread = s.threads a.thread ∨
        s.threads a.thread = .idle ∧ ((s.step a).threads a.thread).phase = 4 ∧
          ((s.step a).threads a.thread).head? = none) := by
  have hself : ∀ t th, (s.setThread t th).threads t = th := fun t th => Function.update_self ..
  cases a with
  | allocate t =>
    refine ⟨rfl, rfl, rfl, ?_⟩
    unfold step
    dsimp only [Action.thread]
    split_ifs with hidle
    · exact ⟨rfl, .inr ⟨hidle, congrArg Thread.phase (hself t _),
        congrArg Thread.head? (hself t _)⟩⟩
    · exact ⟨rfl, .inl rfl⟩
  | deallocate t slot =>
    refine ⟨rfl, rfl, rfl, ?_⟩
    unfold step
    dsimp only [Action.thread]
    split_ifs with hown
    · exact ⟨rfl, .inr ⟨hown.1, (congrArg Thread.phase (hself t _)).trans rfl,
        (congrArg Thread.head? (hself t _)).trans rfl⟩⟩
    · exact ⟨rfl, .inl rfl⟩
  | advance t spurious => exact absurd rfl (ha t spurious)

theorem free_head_of_exchanges (s : MemoryPool capacity τ) (a : Action capacity τ)
    (h : s.exchanges a = 0) : (s.step a).free_head_ = s.free_head_ := by
  cases a with
  | allocate | deallocate =>
    refine (s.begin_cases _ ?_).2.2.2.1
    nofun
  | advance t spurious =>
    by_cases ht : s.threads t = .idle
    · exact congrArg free_head_ (s.advance_idle spurious ht)
    · rcases exchanges_of_ne_idle rfl (s.advance_cases spurious ht) with ⟨-, hhead⟩ | ⟨hone, -⟩
      · exact hhead
      · rw [h] at hone
        cases hone

/-! ## What one thread repeats -/

/-- Whether the head that a thread goes on with is out of date. -/
def Thread.stale (th : Thread capacity) (head : UInt32) : Nat := if th.Stale head then 1 else 0

theorem stale_le (th : Thread capacity) (head : UInt32) : th.stale head ≤ 1 := by
  unfold Thread.stale
  split_ifs <;> omega

theorem stale_of_not {th : Thread capacity} {head : UInt32} (h : ¬ th.Stale head) :
    th.stale head = 0 := if_neg h

theorem not_stale_of_head? {th : Thread capacity} (h : th.head? = none) (head : UInt32) :
    ¬ th.Stale head := by
  rintro ⟨h', hh, -⟩
  rw [h] at hh
  cases hh

theorem stale_congr {th th' : Thread capacity} (h : th'.head? = th.head?) (head : UInt32) :
    th'.stale head = th.stale head := by
  have hiff : th'.Stale head ↔ th.Stale head := by
    unfold Thread.Stale
    rw [h]
  simp only [Thread.stale, hiff]

theorem stale_of_expects {th : Thread capacity} {expected : UInt32}
    (h : th.expects? = some expected) (head : UInt32) :
    th.stale head = if expected = head then 0 else 1 := by
  have hstale : th.Stale head ↔ expected ≠ head := by
    unfold Thread.Stale
    rw [(head?_of_expects h).1]
    simp
  unfold Thread.stale
  by_cases he : expected = head
  · rw [if_neg fun hs => hstale.mp hs he, if_pos he]
  · rw [if_pos (hstale.mpr he), if_neg he]

theorem retries_add_stale (s : MemoryPool capacity τ) (t : τ) (spurious : Bool) :
    s.retries (.advance t spurious) +
        ((s.advance t spurious).threads t).stale (s.advance t spurious).free_head_ ≤
      (s.threads t).stale s.free_head_ := by
  have hretries : ∀ {o}, (s.threads t).expects? = o →
      s.retries (.advance t spurious) = match o with
        | some head => if head = s.free_head_ then 0 else 1
        | none => 0 := by
    rintro o rfl
    rfl
  by_cases ht : s.threads t = .idle
  · rw [s.advance_idle spurious ht, hretries (congrArg Thread.expects? ht)]
    exact (Nat.zero_add _).le
  · cases s.advance_cases spurious ht with
    | exchange hexpects hgenuine hphase hhead =>
      rw [hretries hexpects, stale_of_not (not_stale_of_head? hhead _)]
      dsimp only
      rw [if_pos rfl]
      exact Nat.zero_le _
    | load hsame hphase hhead hfresh =>
      rw [hretries (expects?_of_head? hhead), hsame, stale_of_not hfresh]
      exact Nat.zero_le _
    | fail hsame hexpects hfails hfresh =>
      rw [hretries hexpects, hsame, stale_of_not hfresh, stale_of_expects hexpects]
      exact le_rfl
    | move hsame hexpects hhead =>
      rw [hretries hexpects, hsame, stale_congr hhead]
      exact (Nat.zero_add _).le

/-- What a thread is charged with, and what the others are. -/
def retriesOf (t : τ) (s : MemoryPool capacity τ) (a : Action capacity τ) : Nat :=
  if a.thread = t then s.retries a else 0

def exchangesOfOthers (t : τ) (s : MemoryPool capacity τ) (a : Action capacity τ) : Nat :=
  if a.thread = t then 0 else s.exchanges a

theorem retriesOf_add_stale (t : τ) (s : MemoryPool capacity τ) (a : Action capacity τ) :
    retriesOf t s a + ((s.step a).threads t).stale (s.step a).free_head_ ≤
      (s.threads t).stale s.free_head_ + exchangesOfOthers t s a := by
  unfold retriesOf exchangesOfOthers
  split_ifs with hthread
  · subst hthread
    by_cases ha : ∃ t spurious, a = .advance t spurious
    · obtain ⟨t, spurious, rfl⟩ := ha
      exact s.retries_add_stale t spurious
    · obtain ⟨-, -, hretries, hhead, hsame | ⟨-, -, hnone⟩⟩ :=
        s.begin_cases a fun t spurious h => ha ⟨t, spurious, h⟩
      · rw [hretries, hhead, hsame]
        omega
      · rw [hretries, stale_of_not (not_stale_of_head? hnone _)]
        exact Nat.zero_le _
  · rw [s.threads_of_ne a (Ne.symm hthread)]
    by_cases hex : s.exchanges a = 0
    · rw [s.free_head_of_exchanges a hex]
      omega
    · have hle := stale_le (s.threads t) (s.step a).free_head_
      omega

/-- **A thread repeats no more than the others achieve**: in every run of a fresh pool, its
compare-exchanges fail because of another head at most as often as those of others go through. -/
theorem retries_le (capacity : Nat) (t : τ) (acts : List (Action capacity τ)) :
    Run.total step (retriesOf t) (create capacity τ) acts ≤
      Run.total step (exchangesOfOthers t) (create capacity τ) acts := by
  have hrun := Run.total_le (fun s => (s.threads t).stale s.free_head_) (retriesOf_add_stale t)
    (create capacity τ) acts
  have hstart : ((create capacity τ).threads t).stale (create capacity τ).free_head_ = 0 :=
    stale_of_not (not_stale_of_head? rfl _)
  omega

/-! ## The potential -/

/-- What a thread needs to return: a stale head costs it two more steps. -/
def Thread.weight (th : Thread capacity) (head : UInt32) : Nat := th.phase + 2 * th.stale head

/-- What a thread has in reserve for the others, and between calls for its next call. -/
def Thread.reserve (others : Nat) : Thread capacity → Nat
  | .idle => 4 + 2 * others
  | .allocDone _ | .freeDone => 0
  | _ => 2 * others

theorem weight_of_not_stale {th : Thread capacity} {head : UInt32} (h : ¬ th.Stale head) :
    th.weight head = th.phase := by
  unfold Thread.weight
  rw [stale_of_not h, Nat.mul_zero, Nat.add_zero]

theorem weight_le (th : Thread capacity) (head head' : UInt32) :
    th.weight head' ≤ th.weight head + 2 := by
  have hle := stale_le th head'
  unfold Thread.weight
  omega

theorem reserve_eq (th : Thread capacity) (others : Nat) :
    th.reserve others =
      (if th.phase = 0 then 4 else 0) + if th.phase = 1 then 0 else 2 * others := by
  cases th with
  | idle => rfl
  | _ => exact (Nat.zero_add _).symm

theorem phase_eq_zero {th : Thread capacity} : th.phase = 0 ↔ th = .idle := by
  cases th <;> simp [Thread.phase]

/-- **A step inside a call** takes its thread closer to the return, but for a misfire; when it
exchanges the head it gives the reserve away, and a return gives it back. -/
theorem weight_add_reserve (s : MemoryPool capacity τ) {t : τ} (spurious : Bool) (others : Nat)
    (ht : s.threads t ≠ .idle) :
    1 + (((s.advance t spurious).threads t).weight (s.advance t spurious).free_head_ +
          ((s.advance t spurious).threads t).reserve others) +
        others * (2 * s.exchanges (.advance t spurious)) ≤
      (s.threads t).weight s.free_head_ + (s.threads t).reserve others +
        ((4 + 2 * others) * s.returns (.advance t spurious) +
          2 * s.misfires (.advance t spurious)) := by
  have hadvance := s.advance_cases spurious ht
  have hex := exchanges_of_ne_idle rfl hadvance
  have hreturns : s.returns (.advance t spurious) =
      if ((s.advance t spurious).threads t).phase = 0 then 1 else 0 := by
    unfold returns
    simp only [phase_eq_zero]
    exact if_congr (and_iff_right ht) rfl rfl
  have hphase : (s.threads t).phase ≠ 0 := fun h => ht (phase_eq_zero.mp h)
  rw [hreturns, reserve_eq, reserve_eq]
  cases hadvance with
  | exchange hexpects hgenuine hphase' hhead =>
    have hbefore := (head?_of_expects hexpects).2
    rw [weight_of_not_stale (not_stale_of_head? hhead _), hphase', Thread.weight, hbefore]
    rcases hex with ⟨hex, -⟩ | ⟨hex, -⟩ <;> rw [hex] <;> split_ifs <;> omega
  | load hsame hphase4 hhead hfresh hphase' =>
    rw [hsame, weight_of_not_stale hfresh, weight_of_not_stale (not_stale_of_head? hhead _),
      hphase4]
    rcases hex with ⟨hex, -⟩ | ⟨-, -, hexpects⟩
    · rw [hex]
      split_ifs <;> omega
    · rw [expects?_of_head? hhead] at hexpects
      cases hexpects
  | @fail head hsame hexpects hfails hfresh hphase' =>
    have hbefore := (head?_of_expects hexpects).2
    have hstale := stale_of_expects hexpects s.free_head_
    rw [hsame, weight_of_not_stale hfresh, Thread.weight, hbefore, hstale]
    by_cases hhead : head = s.free_head_
    · have hmisfires : s.misfires (.advance t spurious) = 1 := by
        subst hhead
        rw [hfails rfl]
        exact if_pos hexpects
      rw [hmisfires]
      rcases hex with ⟨hex, -⟩ | ⟨hex, hone, -⟩ <;> rw [hex] <;> split_ifs <;> omega
    · rw [if_neg hhead]
      rcases hex with ⟨hex, -⟩ | ⟨hex, hone, -⟩ <;> rw [hex] <;> split_ifs <;> omega
  | move hsame hexpects hhead hphase' =>
    have hstale := stale_congr hhead s.free_head_
    rw [hsame, Thread.weight, Thread.weight, hstale]
    rcases hex with ⟨hex, -⟩ | ⟨-, -, hexpects'⟩
    · rw [hex]
      split_ifs <;> omega
    · rw [hexpects] at hexpects'
      cases hexpects'

section

variable [Fintype τ]

/-- **The potential**: what the calls in progress still need, and all reserves. -/
def potential (s : MemoryPool capacity τ) : Nat :=
  ∑ t, ((s.threads t).weight s.free_head_ + (s.threads t).reserve (Fintype.card τ - 1))

omit [DecidableEq τ] in
theorem potential_le (s : MemoryPool capacity τ) :
    s.potential ≤ Fintype.card τ * (2 * Fintype.card τ + 3) := by
  have hone : ∀ t ∈ Finset.univ,
      (s.threads t).weight s.free_head_ + (s.threads t).reserve (Fintype.card τ - 1) ≤
        2 * Fintype.card τ + 3 := by
    intro t _
    have hpos : 0 < Fintype.card τ := Fintype.card_pos_iff.mpr ⟨t⟩
    have hstale := stale_le (s.threads t) s.free_head_
    have hload : (s.threads t).phase = 0 ∨ (s.threads t).phase = 4 →
        (s.threads t).stale s.free_head_ = 0 := by
      intro hphase
      apply stale_of_not (not_stale_of_head? _ _)
      cases hth : s.threads t with
      | idle | allocLoad | freeLoad => rfl
      | _ => simp [hth, Thread.phase] at hphase
    have hphase : (s.threads t).phase ≤ 4 := by cases s.threads t <;> simp [Thread.phase]
    rw [reserve_eq, Thread.weight]
    split_ifs <;> omega
  exact (Finset.sum_le_card_nsmul _ _ _ hone).trans (by rw [Nat.nsmul_eq_mul, Finset.card_univ])

/-- **One step of the accounting.** -/
theorem works_add_potential (s : MemoryPool capacity τ) (a : Action capacity τ) :
    s.works a + (s.step a).potential ≤
      s.potential + (2 * (Fintype.card τ + 1) * s.returns a + 2 * s.misfires a) := by
  have hpos : 0 < Fintype.card τ := Fintype.card_pos_iff.mpr ⟨a.thread⟩
  have hcard : 4 + 2 * (Fintype.card τ - 1) = 2 * (Fintype.card τ + 1) := by omega
  unfold potential
  refine Run.sum_le_of_one_moves a.thread (k := 2 * s.exchanges a) ?_ fun t ht => ?_
  · by_cases ha : ∃ t spurious, a = .advance t spurious
    · obtain ⟨t, spurious, rfl⟩ := ha
      by_cases hidle : s.threads t = .idle
      · have hsame : s.step (.advance t spurious) = s := s.advance_idle spurious hidle
        have hworks : s.works (.advance t spurious) = 0 := if_pos hidle
        have hex : s.exchanges (.advance t spurious) = 0 := by
          cases spurious with
          | true => rfl
          | false => exact if_neg (by simp [hidle, Thread.expects?])
        rw [hsame, hworks, hex]
        omega
      · have hworks : s.works (.advance t spurious) = 1 := if_neg hidle
        rw [hworks, ← hcard]
        exact s.weight_add_reserve spurious (Fintype.card τ - 1) hidle
    · obtain ⟨hworks, hex, -, hhead, hsame | ⟨hidle, hphase, hnone⟩⟩ :=
        s.begin_cases a fun t spurious h => ha ⟨t, spurious, h⟩
      · rw [hworks, hex, hhead, hsame]
        omega
      · have hidlePhase : (Thread.idle : Thread capacity).phase = 0 := rfl
        have hreserve : (Thread.idle : Thread capacity).reserve (Fintype.card τ - 1) =
            4 + 2 * (Fintype.card τ - 1) := rfl
        rw [hworks, hex, hidle, weight_of_not_stale (not_stale_of_head? hnone _),
          weight_of_not_stale (not_stale_of_head? rfl _), reserve_eq, hphase, hidlePhase, hreserve,
          if_neg (by decide), if_neg (by decide)]
        omega
  · rw [s.threads_of_ne a ht]
    by_cases hex : s.exchanges a = 0
    · rw [s.free_head_of_exchanges a hex]
      exact Nat.le_add_right _ _
    · have hle := weight_le (s.threads t) s.free_head_ (s.step a).free_head_
      omega

/-- **The pool is lock-free**: in any part of any run, the threads take no more steps inside calls
than the calls that return, the misfires and the number `n` of threads pay for. So of any
`n * (2 * n + 3) + 1` such steps without a misfire one is a return. -/
theorem lock_free (s : MemoryPool capacity τ) (acts : List (Action capacity τ)) :
    Run.total step works s acts ≤
      2 * (Fintype.card τ + 1) * Run.total step returns s acts +
        2 * Run.total step misfires s acts + Fintype.card τ * (2 * Fintype.card τ + 3) := by
  have hrun := Run.total_le potential works_add_potential s acts
  rw [Run.total_add, Run.total_mul, Run.total_mul] at hrun
  have hstart := s.potential_le
  omega

end

end MemoryPool

end HftSdk
