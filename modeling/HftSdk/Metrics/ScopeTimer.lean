import HftSdk.Lib.FirstMatch
import HftSdk.Lib.Run
import Mathlib.Data.Finmap

/-!
# Named timers

`ScopeTimer.hpp`: the slot table of one thread. Every call comes with the reading of the clock that it
takes. A label stands for the characters that it views.

`start` takes the first slot that is not used. `end` looks for a used slot with the label and releases
it. `endAndLog` looks for a slot with the label, used or not, and releases nothing. So a slot may keep a
label that has ended, and be found before the one that the label is started in next.
`timers_measure_iff` says along which runs that does not happen.
-/

namespace HftSdk

open FirstMatch

structure ScopeTimer where
  inUse : Bool := false
  beginTime : Int := 0

namespace ScopeTimer

def start (_ : ScopeTimer) (now : Int) : ScopeTimer := { inUse := true, beginTime := now }

/-- `end`: the time elapsed. -/
def endTimer (timer : ScopeTimer) (now : Int) : Int × ScopeTimer :=
  (now - timer.beginTime, { timer with inUse := false })

end ScopeTimer

namespace ScopeTimerManagement

structure Slot where
  label : String := ""
  scopeTimer : ScopeTimer := {}
  used : Bool := false

def start (slots : List Slot) (label : String) (now : Int) : List Slot :=
  modifyFirst (fun item => !item.used)
    (fun item => { label, used := true, scopeTimer := item.scopeTimer.start now }) slots

/-- `end`. Without a slot to end it returns nothing: control flows off its end. -/
def endTimer (slots : List Slot) (label : String) (now : Int) : Option Int × List Slot :=
  let found (item : Slot) := item.used && item.label == label
  ((slots.find? found).map fun item => (item.scopeTimer.endTimer now).1,
    modifyFirst found
      (fun item => { item with used := false, scopeTimer := (item.scopeTimer.endTimer now).2 }) slots)

/-- What it logs, if anything. -/
def endAndLog (slots : List Slot) (label : String) (now : Int) : Option Int × List Slot :=
  let found (item : Slot) := item.label == label
  ((slots.find? found).map fun item => (item.scopeTimer.endTimer now).1,
    modifyFirst found
      (fun item => { item with scopeTimer := (item.scopeTimer.endTimer now).2 }) slots)

/-! ## Runs -/

inductive Op
  | start | endTimer | endAndLog

structure Call where
  op : Op
  label : String
  now : Int

/-- The slots, with the labels that are started and not yet ended and their last start. -/
structure Timers where
  slots : List Slot
  live : Finmap fun _ : String => Int := ∅

/-- `slots_` before the first call. -/
def initial (SCOPE_TIMER_MAX_SLOTS : Nat) : Timers where
  slots := .replicate SCOPE_TIMER_MAX_SLOTS {}

namespace Timers

def perform (t : Timers) (call : Call) : Option Int × Timers :=
  match call.op with
  | .start =>
    (none, ⟨start t.slots call.label call.now, t.live.insert call.label call.now⟩)
  | .endTimer =>
    let (elapsed, slots) := endTimer t.slots call.label call.now
    (elapsed, ⟨slots, t.live.erase call.label⟩)
  | .endAndLog =>
    let (elapsed, slots) := endAndLog t.slots call.label call.now
    (elapsed, ⟨slots, t.live.erase call.label⟩)

def step (t : Timers) (call : Call) : Timers := (t.perform call).2

variable {t : Timers}

/-- An end of a live label yields the time since its last start. -/
def YieldsInterval (t : Timers) (call : Call) : Prop :=
  match call.op with
  | .start => True
  | _ => ∀ begin', t.live.lookup call.label = some begin' →
    (t.perform call).1 = some (call.now - begin')

/-- Every live label would yield the time since its last start, ended in either way. -/
def Measures (t : Timers) : Prop :=
  ∀ label begin', t.live.lookup label = some begin' → ∀ now,
    (endTimer t.slots label now).1 = some (now - begin') ∧
      (endAndLog t.slots label now).1 = some (now - begin')

theorem Measures.yieldsInterval (h : t.Measures) (call : Call) : t.YieldsInterval call := by
  obtain ⟨op, label, now⟩ := call
  cases op with
  | start => trivial
  | endTimer => exact fun begin' hlive => (h label begin' hlive now).1
  | endAndLog => exact fun begin' hlive => (h label begin' hlive now).2

/-- Where a label is started, the first slot that is free or has the label is free, or was started
at the same reading. -/
def FindsItsSlot (t : Timers) (call : Call) : Prop :=
  match call.op with
  | .start => ∃ item, t.slots.find? (fun item => !item.used || item.label == call.label) = some item ∧
    (item.used = false ∨ item.scopeTimer.beginTime = call.now)
  | _ => True

/-! ## The slot of a live label -/

/-- **The invariant**: the first slot with a live label is the one that is used for it. -/
def InSlots (t : Timers) : Prop :=
  ∀ label begin', t.live.lookup label = some begin' → ∃ item,
    t.slots.find? (fun item => item.label == label) = some item ∧ item.used = true ∧
      item.scopeTimer.beginTime = begin'

theorem InSlots.measures (h : t.InSlots) : t.Measures := by
  intro label begin' hlive now
  obtain ⟨item, hfind, hused, rfl⟩ := h label begin' hlive
  have hboth := find?_and (r := fun item : Slot => item.used) hfind hused
  constructor
  · rw [endTimer, hboth]
    rfl
  · rw [endAndLog, hfind]
    rfl

theorem InSlots.modify (h : t.InSlots) {label : String} {p : Slot → Bool} {f : Slot → Slot}
    (hp : ∀ item, p item = true → item.used = false ∨ item.label = label)
    (hf : ∀ item, p item = true → (f item).label = label) {label' : String} {begin' : Int}
    (hne : label' ≠ label) (hlive : t.live.lookup label' = some begin') :
    ∃ item, (modifyFirst p f t.slots).find? (fun item => item.label == label') = some item ∧
      item.used = true ∧ item.scopeTimer.beginTime = begin' := by
  obtain ⟨item, hfind, hused, hbegin⟩ := h label' begin' hlive
  have hlabel : item.label = label' := by simpa using List.find?_some hfind
  refine ⟨item, find?_modifyFirst_of_ne hfind ?_ ?_, hused, hbegin⟩
  · by_contra hcon
    rcases hp item (by simpa using hcon) with hfree | hsame
    · rw [hused] at hfree
      cases hfree
    · exact hne (hlabel.symm.trans hsame)
  · intro b hb
    simpa [hf b hb] using Ne.symm hne

theorem Measures.findsItsSlot {call : Call} (hafter : (t.step call).Measures) :
    t.FindsItsSlot call := by
  obtain ⟨op, label, now⟩ := call
  cases op with
  | start =>
    have hmeasures := (hafter label now (Finmap.lookup_insert _) now).2
    change ((modifyFirst _ _ t.slots).find? (fun item => item.label == label)).map _ = _ at hmeasures
    cases hfind : t.slots.find? (fun item => !item.used || item.label == label) with
    | none =>
      simp only [List.find?_eq_none, Bool.or_eq_true, not_or] at hfind
      rw [modifyFirst_of_find?_eq_none (List.find?_eq_none.mpr fun item hitem => (hfind item hitem).1),
        List.find?_eq_none.mpr fun item hitem => (hfind item hitem).2] at hmeasures
      cases hmeasures
    | some item =>
      refine ⟨item, hfind, ?_⟩
      cases hused : item.used with
      | false => exact Or.inl rfl
      | true =>
        rw [find?_modifyFirst_of_before hfind (by simp [hused])] at hmeasures
        have helapsed : now - item.scopeTimer.beginTime = now - now := Option.some_inj.mp hmeasures
        refine Or.inr ?_
        show item.scopeTimer.beginTime = now
        omega
  | endTimer => trivial
  | endAndLog => trivial

section Step

variable (h : t.InSlots)
include h

theorem InSlots.erase {label : String} {p : Slot → Bool} {f : Slot → Slot}
    (hp : ∀ item, p item = true → item.label = label) (hf : ∀ item, (f item).label = item.label) :
    InSlots ⟨modifyFirst p f t.slots, t.live.erase label⟩ := by
  intro label' begin' hlive
  dsimp only at hlive
  have hne : label' ≠ label := by
    rintro rfl
    rw [Finmap.lookup_erase] at hlive
    cases hlive
  rw [Finmap.lookup_erase_ne hne] at hlive
  apply h.modify _ _ hne hlive
  · exact fun item hitem => Or.inr (hp item hitem)
  · exact fun item hitem => (hf item).trans (hp item hitem)

theorem InSlots.endTimer (label : String) (now : Int) : (t.step ⟨.endTimer, label, now⟩).InSlots := by
  apply h.erase
  · intro item hitem
    simp only [Bool.and_eq_true, beq_iff_eq] at hitem
    exact hitem.2
  · exact fun _ => rfl

theorem InSlots.endAndLog (label : String) (now : Int) :
    (t.step ⟨.endAndLog, label, now⟩).InSlots := by
  apply h.erase
  · exact fun item hitem => beq_iff_eq.mp hitem
  · exact fun _ => rfl

theorem InSlots.start {label : String} {now : Int}
    (hfinds : t.FindsItsSlot ⟨.start, label, now⟩) : (t.step ⟨.start, label, now⟩).InSlots := by
  obtain ⟨item, hfind, hitem⟩ := hfinds
  intro label' begin' hlive
  change (t.live.insert label now).lookup label' = some begin' at hlive
  by_cases hne : label' = label
  · subst hne
    rw [Finmap.lookup_insert] at hlive
    obtain rfl := Option.some_inj.mp hlive
    cases hused : item.used with
    | false =>
      exact ⟨_, find?_modifyFirst_of_changed hfind (by simp [hused]) (by simp), rfl, rfl⟩
    | true =>
      have hbegin := hitem.resolve_left (by simp [hused])
      exact ⟨item, find?_modifyFirst_of_before hfind (by simp [hused]), hused, hbegin⟩
  · rw [Finmap.lookup_insert_of_ne _ hne] at hlive
    apply h.modify _ _ hne hlive
    · intro item hitem
      simp only [Bool.not_eq_true'] at hitem
      exact Or.inl hitem
    · exact fun _ _ => rfl

theorem InSlots.step {call : Call} (hfinds : t.FindsItsSlot call) : (t.step call).InSlots := by
  obtain ⟨op, label, now⟩ := call
  cases op with
  | start => exact h.start hfinds
  | endTimer => exact h.endTimer label now
  | endAndLog => exact h.endAndLog label now

theorem InSlots.step_iff (call : Call) : (t.step call).Measures ↔ t.FindsItsSlot call :=
  ⟨Measures.findsItsSlot, fun hfinds => (h.step hfinds).measures⟩

end Step

end Timers

open Timers

theorem inSlots_initial (max : Nat) : (initial max).InSlots := by
  intro label begin' hlive
  cases hlive

theorem yieldsInterval_of_findsItsSlot {max : Nat} {calls : List Call}
    (h : Run.Along step FindsItsSlot (initial max) calls) :
    Run.Along step YieldsInterval (initial max) calls := by
  apply h.imp (I := InSlots) _ (inSlots_initial max)
  exact fun t call h hcall => ⟨h.step hcall, h.measures.yieldsInterval call⟩

/-- **When named timers measure their own interval**: along a run every live label is measured since its
last start exactly when every start finds its slot. -/
theorem timers_measure_iff (max : Nat) (calls : List Call) :
    (Run.Along step (fun t call => (t.step call).Measures) (initial max) calls ↔
      Run.Along step FindsItsSlot (initial max) calls) ∧
    (Run.Along step FindsItsSlot (initial max) calls →
      Run.Along step YieldsInterval (initial max) calls) := by
  refine ⟨?_, yieldsInterval_of_findsItsSlot⟩
  exact Run.along_congr (I := InSlots) (fun t call h => h.step_iff call)
    (fun t call h hfinds => h.step hfinds) (inSlots_initial max)

/-- A label that is ended with `endAndLog` and started again. -/
def reusedLabel : List Call :=
  [⟨.start, "lookup", 0⟩, ⟨.endAndLog, "lookup", 1⟩, ⟨.start, "lookup", 2⟩, ⟨.endTimer, "lookup", 3⟩]

/-- The slot that `endAndLog` did not release is found first. -/
theorem endTimer_finds_stale_slot : ¬ ∀ (max : Nat) (calls : List Call),
    calls.Pairwise (·.now ≤ ·.now) →
    Run.Along step (fun t call => (t.step call).live.keys.card ≤ max) (initial max) calls →
    Run.Along step YieldsInterval (initial max) calls := by
  intro h
  obtain ⟨-, -, -, hlast, -⟩ := h 32 reusedLabel (by decide) (by decide)
  have hstale := hlast 2 (by decide)
  revert hstale
  decide

/-! ## Labels that are ended before they are started again -/

namespace Timers

/-- A live label is not started again, and is ended with `end`. -/
def EndsFirst (t : Timers) (call : Call) : Prop := call.op = .endTimer ∨ call.label ∉ t.live

/-- The labels of the used slots. -/
def usedLabels (slots : List Slot) : List String :=
  (slots.filter (·.used)).map (·.label)

/-- **The invariant**: one used slot for every live label. -/
structure OneEach (max : Nat) (t : Timers) : Prop where
  length : t.slots.length = max
  nodup : (usedLabels t.slots).Nodup
  mem_iff : ∀ label, label ∈ usedLabels t.slots ↔ label ∈ t.live

theorem usedLabels_append (slots slots' : List Slot) :
    usedLabels (slots ++ slots') = usedLabels slots ++ usedLabels slots' := by
  unfold usedLabels
  rw [List.filter_append, List.map_append]

theorem usedLabels_cons (item : Slot) (slots : List Slot) : usedLabels (item :: slots) =
    if item.used then item.label :: usedLabels slots else usedLabels slots := by
  unfold usedLabels
  rw [List.filter_cons]
  split <;> rfl

theorem mem_usedLabels {slots : List Slot} {label : String} : label ∈ usedLabels slots ↔
    ∃ item ∈ slots, item.used = true ∧ item.label = label := by
  simp [usedLabels, and_assoc]

variable {max : Nat} {t : Timers}

theorem oneEach_initial (max : Nat) : OneEach max (initial max) := by
  have hnil : usedLabels (initial max).slots = [] := by simp [usedLabels, initial]
  refine ⟨List.length_replicate, ?_, fun label => ?_⟩
  · rw [hnil]
    exact List.nodup_nil
  · rw [hnil]
    exact iff_of_false List.not_mem_nil Finmap.notMem_empty

theorem OneEach.card (h : OneEach max t) : t.live.keys.card = (usedLabels t.slots).length := by
  have hkeys : t.live.keys = (usedLabels t.slots).toFinset := by
    ext label
    rw [Finmap.mem_keys, List.mem_toFinset, h.mem_iff]
  rw [hkeys, List.toFinset_card_of_nodup h.nodup]

theorem OneEach.exists_free (h : OneEach max t) (hlt : t.live.keys.card < max) :
    ∃ item ∈ t.slots, item.used = false := by
  by_contra hcon
  push Not at hcon
  have hall : t.slots.filter (·.used) = t.slots :=
    List.filter_eq_self.mpr fun item hitem => by simpa using hcon item hitem
  rw [h.card, usedLabels, hall, List.length_map, h.length] at hlt
  exact lt_irrefl _ hlt

theorem OneEach.findsItsSlot (h : OneEach max t) {label : String} {now : Int}
    (hnew : label ∉ t.live) (hlt : t.live.keys.card < max) :
    t.FindsItsSlot ⟨.start, label, now⟩ := by
  obtain ⟨free, hfree, hunused⟩ := h.exists_free hlt
  obtain ⟨item, hfind⟩ : ∃ item,
      t.slots.find? (fun item => !item.used || item.label == label) = some item := by
    rw [← Option.isSome_iff_exists, List.find?_isSome]
    exact ⟨free, hfree, by simp [hunused]⟩
  refine ⟨item, hfind, Or.inl ?_⟩
  by_contra hused
  rw [Bool.not_eq_false] at hused
  have hlabel : item.label = label := by simpa [hused] using List.find?_some hfind
  rw [← h.mem_iff, mem_usedLabels] at hnew
  exact hnew ⟨item, List.mem_of_find?_eq_some hfind, hused, hlabel⟩

theorem OneEach.start (h : OneEach max t) {label : String} (now : Int) (hnew : label ∉ t.live)
    (hlt : t.live.keys.card < max) : OneEach max (t.step ⟨.start, label, now⟩) := by
  obtain ⟨item, hfind⟩ : ∃ item, t.slots.find? (fun item => !item.used) = some item := by
    rw [← Option.isSome_iff_exists, List.find?_isSome]
    simpa using h.exists_free hlt
  have hunused : item.used = false := by simpa using List.find?_some hfind
  obtain ⟨pre, post, hslots, hmodify⟩ := modifyFirst_of_find?
    (f := fun item => { label, used := true, scopeTimer := item.scopeTimer.start now }) hfind
  have hperm : (usedLabels (t.step ⟨.start, label, now⟩).slots).Perm (label :: usedLabels t.slots) := by
    have hafter : (t.step ⟨.start, label, now⟩).slots = pre ++ _ :: post := hmodify
    rw [hafter, hslots, usedLabels_append, usedLabels_append, usedLabels_cons, usedLabels_cons,
      if_pos rfl, if_neg (by simp [hunused])]
    exact List.perm_middle
  refine ⟨?_, ?_, fun label' => ?_⟩
  · change (modifyFirst _ _ _).length = max
    rw [length_modifyFirst, h.length]
  · rw [hperm.nodup_iff, List.nodup_cons, h.mem_iff]
    exact ⟨hnew, h.nodup⟩
  · change _ ↔ label' ∈ t.live.insert label now
    rw [hperm.mem_iff, List.mem_cons, h.mem_iff, Finmap.mem_insert]

theorem OneEach.endTimer (h : OneEach max t) (label : String) (now : Int) :
    OneEach max (t.step ⟨.endTimer, label, now⟩) := by
  have hmem : ∀ label', label' ∈ t.live.erase label ↔ label' ≠ label ∧ label' ∈ t.live :=
    fun label' => Finmap.mem_erase
  have hlength : (t.step ⟨.endTimer, label, now⟩).slots.length = max := by
    change (modifyFirst _ _ _).length = max
    rw [length_modifyFirst, h.length]
  cases hfind : t.slots.find? (fun item => item.used && item.label == label) with
  | none =>
    have hslots : (t.step ⟨.endTimer, label, now⟩).slots = t.slots :=
      modifyFirst_of_find?_eq_none hfind
    have hnot : label ∉ t.live := by
      rw [← h.mem_iff, mem_usedLabels]
      rintro ⟨item, hitem, hused, hlabel⟩
      simpa [hused, hlabel] using List.find?_eq_none.mp hfind item hitem
    refine ⟨hlength, by rw [hslots]; exact h.nodup, fun label' => ?_⟩
    change _ ↔ label' ∈ t.live.erase label
    rw [hslots, h.mem_iff, hmem, iff_and_self]
    rintro hlive rfl
    exact hnot hlive
  | some item =>
    have hitem : item.used = true ∧ item.label = label := by simpa using List.find?_some hfind
    obtain ⟨pre, post, hslots, hmodify⟩ := modifyFirst_of_find? (f := fun item =>
      { item with used := false, scopeTimer := (item.scopeTimer.endTimer now).2 }) hfind
    have hperm : (usedLabels t.slots).Perm
        (label :: usedLabels (t.step ⟨.endTimer, label, now⟩).slots) := by
      have hafter : (t.step ⟨.endTimer, label, now⟩).slots = pre ++ _ :: post := hmodify
      rw [hafter, hslots, usedLabels_append, usedLabels_append, usedLabels_cons, usedLabels_cons,
        if_pos hitem.1, if_neg (by simp), hitem.2]
      exact List.perm_middle
    have hnodup := hperm.nodup_iff.mp h.nodup
    rw [List.nodup_cons] at hnodup
    refine ⟨hlength, hnodup.2, fun label' => ?_⟩
    change _ ↔ label' ∈ t.live.erase label
    rw [hmem, ← h.mem_iff, hperm.mem_iff, List.mem_cons]
    constructor
    · rintro hused
      exact ⟨fun heq => hnodup.1 (heq ▸ hused), Or.inr hused⟩
    · rintro ⟨hne, hused⟩
      exact hused.resolve_left hne

theorem OneEach.endAndLog (h : OneEach max t) {label : String} (now : Int)
    (hnot : label ∉ t.live) : OneEach max (t.step ⟨.endAndLog, label, now⟩) := by
  have hused : usedLabels (t.step ⟨.endAndLog, label, now⟩).slots = usedLabels t.slots := by
    change usedLabels (modifyFirst _ _ _) = _
    cases hfind : t.slots.find? (fun item => item.label == label) with
    | none => rw [modifyFirst_of_find?_eq_none hfind]
    | some item =>
      obtain ⟨pre, post, hslots, hmodify⟩ := modifyFirst_of_find? (f := fun item : Slot =>
        { item with scopeTimer := (item.scopeTimer.endTimer now).2 }) hfind
      rw [hmodify, hslots, usedLabels_append, usedLabels_append, usedLabels_cons, usedLabels_cons]
  refine ⟨?_, hused ▸ h.nodup, fun label' => ?_⟩
  · change (modifyFirst _ _ _).length = max
    rw [length_modifyFirst, h.length]
  · change _ ↔ label' ∈ t.live.erase label
    rw [hused, h.mem_iff, Finmap.mem_erase, iff_and_self]
    rintro hlive rfl
    exact hnot hlive

theorem endsFirst_yieldsInterval (max : Nat) (calls : List Call)
    (h : Run.Along step (fun t call => t.EndsFirst call ∧ (t.step call).live.keys.card ≤ max)
      (initial max) calls) : Run.Along step YieldsInterval (initial max) calls := by
  apply yieldsInterval_of_findsItsSlot
  apply h.imp (I := OneEach max) _ (oneEach_initial max)
  rintro t ⟨op, label, now⟩ ht ⟨hends, hcard⟩
  cases op with
  | start =>
    have hnew : label ∉ t.live := hends.resolve_left nofun
    have hkeys : (t.step ⟨.start, label, now⟩).live.keys = insert label t.live.keys := by
      ext label'
      rw [Finmap.mem_keys, Finset.mem_insert, Finmap.mem_keys]
      exact Finmap.mem_insert
    rw [hkeys, Finset.card_insert_of_notMem (by rwa [Finmap.mem_keys])] at hcard
    exact ⟨ht.start now hnew hcard, ht.findsItsSlot hnew hcard⟩
  | endTimer => exact ⟨ht.endTimer label now, trivial⟩
  | endAndLog => exact ⟨ht.endAndLog now (hends.resolve_left nofun), trivial⟩

end Timers

end ScopeTimerManagement

end HftSdk
