import HftSdk.Concurrency.HPRingBuffer

/-!
# The ring buffer makes progress

A blocking `push` or `pop` starts over as often as it has to wait. `run_progress`: it waits for the
other side only. Once there is room, a push returns in four steps of the producer, whatever the
consumer does in between; once there is an item, a pop returns in four steps of the consumer. No
buffer is full and empty at once, so the two threads never wait for each other.
-/

namespace HftSdk

namespace HPRingBuffer

variable {T : Type} {sz : RingSize}

/-! ## Calls under way -/

/-- The item that the producer is pushing. -/
def Producer.item? : Producer T → Option T
  | .idle => none
  | .start item _ | .loaded item _ _ | .free item _ | .wrote item _ => some item

/-- How many steps the producer has before it, when there is room. -/
def Producer.phase : Producer T → Nat
  | .idle => 0
  | .start _ _ => 4
  | .loaded _ _ _ => 3
  | .free _ _ => 2
  | .wrote _ _ => 1

/-- How many steps the consumer has before it, when there is an item. -/
def Consumer.phase : Consumer T → Nat
  | .idle => 0
  | .start _ => 4
  | .loaded _ _ => 3
  | .ready _ => 2
  | .took _ _ => 1

def Action.isProduce : Action T → Bool
  | .produce => true
  | _ => false

def Action.isConsume : Action T → Bool
  | .consume => true
  | _ => false

variable {t : Traced T sz} {item : T}

theorem Producer.phase_pos {p : Producer T} (h : p.item? = some item) : 0 < p.phase := by
  cases p with
  | idle => cases h
  | _ => exact Nat.succ_pos _

/-! ## One step -/

theorem prefix_record (t : Traced T sz) (r : HPRingBuffer T sz × Option (Outcome T)) :
    t.pushed <+: (t.record r).pushed ∧ t.popped <+: (t.record r).popped := by
  obtain ⟨s, o⟩ := r
  cases o with
  | none => exact ⟨List.prefix_rfl, List.prefix_rfl⟩
  | some o =>
    cases o with
    | pushed item => exact ⟨List.prefix_append _ _, List.prefix_rfl⟩
    | popped value => exact ⟨List.prefix_rfl, List.prefix_append _ _⟩
    | full | empty => exact ⟨List.prefix_rfl, List.prefix_rfl⟩

theorem prefix_run (moved : T → T) (t : Traced T sz) (acts : List (Action T)) :
    t.pushed <+: (acts.foldl (Traced.step moved) t).pushed ∧
      t.popped <+: (acts.foldl (Traced.step moved) t).popped := by
  refine Run.invariant (I := fun u : Traced T sz => t.pushed <+: u.pushed ∧ t.popped <+: u.popped)
    ?_ acts ⟨List.prefix_rfl, List.prefix_rfl⟩
  intro u a h
  have hstep := prefix_record u (u.state.step moved a)
  exact ⟨h.1.trans hstep.1, h.2.trans hstep.2⟩

theorem Inv.produce_progress (h : Inv t) (hitem : t.state.producer.item? = some item)
    (hroom : t.stored < sz.size - 1) :
    (t.record t.state.produce).pushed = t.pushed ++ [item] ∨
      (t.record t.state.produce).state.producer.item? = some item ∧
        (t.record t.state.produce).state.producer.phase < t.state.producer.phase ∧
        (t.record t.state.produce).pushed = t.pushed ∧
        (t.record t.state.produce).popped = t.popped := by
  have hprod := h.producer
  unfold HPRingBuffer.produce
  cases hp : t.state.producer with
  | idle =>
    rw [hp] at hitem
    cases hitem
  | start item' blocking =>
    rw [hp] at hitem
    exact .inr ⟨hitem, by simp [Traced.record, Producer.phase], rfl, rfl⟩
  | loaded item' blocking ws =>
    rw [hp] at hitem hprod
    obtain rfl : ws = _ := hprod
    have hnotFull : ¬ sz.mask ≤ UInt64.ofNat t.pushed.length - t.state.read_sequence_ :=
      mt h.mask_le_iff.mp hroom.ne
    dsimp only
    rw [if_neg hnotFull]
    exact .inr ⟨hitem, by simp [Traced.record, Producer.phase], rfl, rfl⟩
  | free item' ws =>
    rw [hp] at hitem
    exact .inr ⟨hitem, by simp [Traced.record, Producer.phase], rfl, rfl⟩
  | wrote item' ws =>
    rw [hp] at hitem
    obtain rfl := Option.some_inj.mp hitem
    exact .inl rfl

theorem producer_of_not_produce (moved : T → T) {a : Action T} (ha : a.isProduce = false)
    (hitem : t.state.producer.item? = some item) :
    (t.step moved a).state.producer = t.state.producer ∧ (t.step moved a).pushed = t.pushed := by
  unfold Traced.step HPRingBuffer.step
  cases a with
  | produce => cases ha
  | push item' blocking =>
    cases hp : t.state.producer with
    | idle =>
      rw [hp] at hitem
      cases hitem
    | _ => exact ⟨hp, rfl⟩
  | pop blocking =>
    cases t.state.consumer with
    | idle => exact ⟨rfl, rfl⟩
    | _ => exact ⟨rfl, rfl⟩
  | consume =>
    unfold HPRingBuffer.consume
    dsimp only
    cases t.state.consumer with
    | loaded blocking rs =>
      dsimp only
      split_ifs <;> exact ⟨rfl, rfl⟩
    | _ => exact ⟨rfl, rfl⟩

theorem Inv.consume_progress (h : Inv t) (moved : T → T) (hcall : 0 < t.state.consumer.phase)
    {value : T} (hvalue : t.pushed[t.popped.length]? = some value) :
    (t.record (t.state.consume moved)).popped = t.popped ++ [value] ∨
      0 < (t.record (t.state.consume moved)).state.consumer.phase ∧
        (t.record (t.state.consume moved)).state.consumer.phase < t.state.consumer.phase ∧
        (t.record (t.state.consume moved)).popped = t.popped ∧
        (t.record (t.state.consume moved)).pushed = t.pushed := by
  have hcons := h.consumer
  have hlt := (List.getElem?_eq_some_iff.mp hvalue).1
  unfold HPRingBuffer.consume
  cases hc : t.state.consumer with
  | idle =>
    rw [hc] at hcall
    cases hcall
  | start blocking => exact .inr ⟨by simp [Traced.record, Consumer.phase],
      by simp [Traced.record, Consumer.phase], rfl, rfl⟩
  | loaded blocking rs =>
    rw [hc] at hcons
    obtain rfl : rs = _ := hcons
    have hnotEmpty : ¬ UInt64.ofNat t.popped.length = t.state.write_sequence_ := by
      refine mt h.eq_write_iff.mp ?_
      unfold Traced.stored
      omega
    dsimp only
    rw [if_neg hnotEmpty]
    exact .inr ⟨by simp [Traced.record, Consumer.phase], by simp [Traced.record, Consumer.phase],
      rfl, rfl⟩
  | ready rs =>
    exact .inr ⟨by simp [Traced.record, Consumer.phase], by simp [Traced.record, Consumer.phase],
      rfl, rfl⟩
  | took rs value' =>
    rw [hc] at hcons
    obtain rfl : value = value' := Option.some_inj.mp (hvalue.symm.trans hcons.2)
    exact .inl rfl

theorem consumer_of_not_consume (moved : T → T) {a : Action T} (ha : a.isConsume = false)
    (hcall : 0 < t.state.consumer.phase) :
    (t.step moved a).state.consumer = t.state.consumer ∧ (t.step moved a).popped = t.popped := by
  unfold Traced.step HPRingBuffer.step
  cases a with
  | consume => cases ha
  | pop blocking =>
    cases hc : t.state.consumer with
    | idle =>
      rw [hc] at hcall
      cases hcall
    | _ => exact ⟨hc, rfl⟩
  | push item' blocking =>
    cases t.state.producer with
    | idle => exact ⟨rfl, rfl⟩
    | _ => exact ⟨rfl, rfl⟩
  | produce =>
    unfold HPRingBuffer.produce
    dsimp only
    cases t.state.producer with
    | loaded item' blocking ws =>
      dsimp only
      split_ifs <;> exact ⟨rfl, rfl⟩
    | _ => exact ⟨rfl, rfl⟩

/-! ## Runs -/

theorem Inv.pushed_of_room (h : Inv t) (moved : T → T) (hitem : t.state.producer.item? = some item)
    (hroom : t.stored < sz.size - 1) {acts : List (Action T)}
    (hacts : t.state.producer.phase ≤ acts.countP Action.isProduce) :
    t.pushed ++ [item] <+: (acts.foldl (Traced.step moved) t).pushed := by
  induction acts generalizing t with
  | nil => exact absurd (Producer.phase_pos hitem) (Nat.not_lt.mpr hacts)
  | cons a acts ih =>
    rw [List.foldl_cons]
    rw [List.countP_cons] at hacts
    cases ha : a.isProduce with
    | true =>
      obtain rfl : a = .produce := by
        cases a with
        | produce => rfl
        | _ => cases ha
      rcases h.produce_progress hitem hroom with hdone | ⟨hitem', hphase, hpushed, hpopped⟩
      · exact hdone ▸ (prefix_run moved _ acts).1
      · have hroom' : (t.step moved .produce).stored < sz.size - 1 := by
          unfold Traced.stored at hroom ⊢
          rw [show (t.step moved .produce).pushed = t.pushed from hpushed,
            show (t.step moved .produce).popped = t.popped from hpopped]
          exact hroom
        rw [← hpushed]
        rw [if_pos ha] at hacts
        exact ih (h.step moved .produce) hitem' hroom'
          (Nat.le_of_lt_succ (hphase.trans_le hacts))
    | false =>
      obtain ⟨hproducer, hpushed⟩ := producer_of_not_produce moved ha hitem
      have hpopped := (prefix_record t (t.state.step moved a)).2.length_le
      have hroom' : (t.step moved a).stored < sz.size - 1 := by
        change t.popped.length ≤ (t.step moved a).popped.length at hpopped
        unfold Traced.stored at hroom ⊢
        rw [hpushed]
        omega
      rw [← hpushed]
      rw [if_neg (by rw [ha]; decide)] at hacts
      exact ih (h.step moved a) (by rw [hproducer, hitem]) hroom' (by rw [hproducer]; exact hacts)

theorem Inv.popped_of_item (h : Inv t) (moved : T → T) (hcall : 0 < t.state.consumer.phase)
    {value : T} (hvalue : t.pushed[t.popped.length]? = some value) {acts : List (Action T)}
    (hacts : t.state.consumer.phase ≤ acts.countP Action.isConsume) :
    t.popped ++ [value] <+: (acts.foldl (Traced.step moved) t).popped := by
  induction acts generalizing t with
  | nil => exact absurd hcall (Nat.not_lt.mpr hacts)
  | cons a acts ih =>
    rw [List.foldl_cons]
    rw [List.countP_cons] at hacts
    cases ha : a.isConsume with
    | true =>
      obtain rfl : a = .consume := by
        cases a with
        | consume => rfl
        | _ => cases ha
      rw [if_pos ha] at hacts
      rcases h.consume_progress moved hcall hvalue with hdone | ⟨hcall', hphase, hpopped, hpushed⟩
      · exact hdone ▸ (prefix_run moved _ acts).2
      · rw [← hpopped]
        refine ih (h.step moved .consume) hcall' ?_ (Nat.le_of_lt_succ (hphase.trans_le hacts))
        rw [hpushed, hpopped]
        exact hvalue
    | false =>
      rw [if_neg (by rw [ha]; decide)] at hacts
      obtain ⟨hconsumer, hpopped⟩ := consumer_of_not_consume moved ha hcall
      obtain ⟨rest, hpushed⟩ := (prefix_record t (t.state.step moved a)).1
      change t.pushed ++ rest = (t.step moved a).pushed at hpushed
      rw [← hpopped]
      refine ih (h.step moved a) (by rw [hconsumer]; exact hcall) ?_
        (by rw [hconsumer]; exact hacts)
      rw [hpopped, ← hpushed, List.getElem?_append_left (List.getElem?_eq_some_iff.mp hvalue).1]
      exact hvalue

/-- **What waits for what**, from any moment on: a push for room, a pop for an item, and the two
sides never for each other. -/
structure Progress (moved : T → T) (t : Traced T sz) : Prop where
  push : ∀ (item : T) (acts : List (Action T)), t.state.producer.item? = some item →
    t.stored < sz.size - 1 → 4 ≤ acts.countP Action.isProduce →
    t.pushed ++ [item] <+: (acts.foldl (Traced.step moved) t).pushed
  pop : ∀ (value : T) (acts : List (Action T)), 0 < t.state.consumer.phase →
    t.pushed[t.popped.length]? = some value → 4 ≤ acts.countP Action.isConsume →
    t.popped ++ [value] <+: (acts.foldl (Traced.step moved) t).popped
  live : ∀ (item : T) (acts : List (Action T)), t.state.producer.item? = some item →
    0 < t.state.consumer.phase → 4 ≤ acts.countP Action.isProduce →
    4 ≤ acts.countP Action.isConsume →
    t.pushed.length < (acts.foldl (Traced.step moved) t).pushed.length ∨
      t.popped.length < (acts.foldl (Traced.step moved) t).popped.length

theorem Producer.phase_le (p : Producer T) : p.phase ≤ 4 := by
  cases p <;> simp [Producer.phase]

theorem Consumer.phase_le (c : Consumer T) : c.phase ≤ 4 := by
  cases c <;> simp [Consumer.phase]

theorem Inv.progress (h : Inv t) (moved : T → T) : Progress moved t where
  push item acts hitem hroom hacts :=
    h.pushed_of_room moved hitem hroom ((Producer.phase_le _).trans hacts)
  pop value acts hcall hvalue hacts :=
    h.popped_of_item moved hcall hvalue ((Consumer.phase_le _).trans hacts)
  live item acts hitem hcall hacts hacts' := by
    by_cases hroom : t.stored < sz.size - 1
    · have hlength :=
        (h.pushed_of_room moved hitem hroom ((Producer.phase_le _).trans hacts)).length_le
      rw [List.length_append, List.length_singleton] at hlength
      exact .inl hlength
    · -- a full buffer has an item
      have hlt : t.popped.length < t.pushed.length := by
        have hsize := sz.valid.1
        unfold Traced.stored at hroom
        omega
      have hlength := (h.popped_of_item moved hcall (List.getElem?_eq_getElem hlt)
        ((Consumer.phase_le _).trans hacts')).length_le
      rw [List.length_append, List.length_singleton] at hlength
      exact .inr hlength

/-- **Nobody waits for nothing**, at any moment of any run and whatever comes next. -/
theorem run_progress (moved : T → T) (buffer : Fin sz.size → T) (acts : List (Action T)) :
    Progress moved (acts.foldl (Traced.step moved) (create buffer)) :=
  (Run.invariant (fun _ a h => h.step moved a) acts (inv_create buffer)).progress moved

end HPRingBuffer

end HftSdk
