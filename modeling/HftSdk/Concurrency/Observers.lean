import HftSdk.Concurrency.HPRingBuffer

/-!
# Queries of the ring buffer

`HPRingBuffer.hpp`: `empty`, `full`, `size` and `capacity`. Any number of threads query the buffer
while the producer and the consumer go on. A query loads `write_sequence_` and then `read_sequence_`,
and the other threads step in between. Its answer is in range unless the consumer overtakes it there,
by popping more than the first load counted as pushed.
-/

namespace HftSdk

namespace HPRingBuffer

variable {T : Type} {sz : RingSize} {ω : Type}

inductive Query
  | empty
  | full
  | size
deriving DecidableEq

/-- Where a thread that queries is: outside, before the load of `write_sequence_`, before that of
`read_sequence_`. -/
inductive Observer
  | idle
  | start (q : Query)
  | loaded (q : Query) (ws : UInt64)
deriving DecidableEq

/-- What a query returns. -/
inductive Answer
  | empty (value : Bool)
  | full (value : Bool)
  | size (value : Nat)
deriving DecidableEq

/-- `capacity()`. -/
def capacity (sz : RingSize) : Nat := sz.size - 1

/-- The answer from what the two loads returned. -/
def answer (sz : RingSize) (ws rs : UInt64) : Query → Answer
  | .empty => .empty (ws == rs)
  | .full => .full (decide (sz.mask ≤ ws - rs))
  | .size => .size (ws - rs).toNat

/-- The buffer and the threads that query it. For a query under way, `written` is how many items had
been pushed at its first load, and `wasFull` whether the buffer was full at some moment since it was
called. -/
structure Watched (T : Type) (sz : RingSize) (ω : Type) where
  traced : Traced T sz
  observers : ω → Observer := fun _ => .idle
  written : ω → Nat := fun _ => 0
  wasFull : ω → Bool := fun _ => false

/-- A step of the producer or the consumer, a query, or the next load of the query a thread is in. -/
inductive WatchedAction (T ω : Type)
  | act (a : Action T)
  | call (o : ω) (q : Query)
  | observe (o : ω)

namespace Watched

def create (ω : Type) (buffer : Fin sz.size → T) : Watched T sz ω :=
  { traced := HPRingBuffer.create buffer }

/-- Whether the buffer holds as many items as it can. -/
def isFull (w : Watched T sz ω) : Bool := decide (w.traced.stored = capacity sz)

/-- A step of the producer or the consumer, which a query under way may see fill the buffer. -/
def act (moved : T → T) (w : Watched T sz ω) (a : Action T) : Watched T sz ω :=
  let w' := { w with traced := w.traced.step moved a }
  { w' with wasFull := fun o => w.wasFull o || w'.isFull }

variable [DecidableEq ω]

/-- A query is called; a thread that is in one makes no other. -/
def call (w : Watched T sz ω) (o : ω) (q : Query) : Watched T sz ω :=
  match w.observers o with
  | .idle =>
    { w with
      observers := Function.update w.observers o (.start q)
      wasFull := Function.update w.wasFull o w.isFull }
  | _ => w

/-- The next load. -/
def observe (w : Watched T sz ω) (o : ω) : Watched T sz ω :=
  match w.observers o with
  | .idle => w
  | .start q =>
    { w with
      observers := Function.update w.observers o (.loaded q w.traced.state.write_sequence_)
      written := Function.update w.written o w.traced.pushed.length }
  | .loaded _ _ => { w with observers := Function.update w.observers o .idle }

def step (moved : T → T) (w : Watched T sz ω) : WatchedAction T ω → Watched T sz ω
  | .act a => w.act moved a
  | .call o q => w.call o q
  | .observe o => w.observe o

omit [DecidableEq ω] in
/-- What a query returns at its second load. -/
def answer? (w : Watched T sz ω) (o : ω) : Option Answer :=
  match w.observers o with
  | .loaded q ws => some (answer sz ws w.traced.state.read_sequence_ q)
  | _ => none

/-- An answer that can be believed. -/
def Believable (w : Watched T sz ω) (o : ω) : Answer → Prop
  | .empty _ => True
  | .full value => value = true → w.wasFull o = true
  | .size value => value ≤ capacity sz

instance (w : Watched T sz ω) (o : ω) : DecidablePred (w.Believable o)
  | .empty _ => isTrue trivial
  | .full value => inferInstanceAs (Decidable (value = true → w.wasFull o = true))
  | .size value => inferInstanceAs (Decidable (value ≤ capacity sz))

/-- **The property**: a step that returns from a query returns such an answer. -/
def InRange (w : Watched T sz ω) : WatchedAction T ω → Prop
  | .observe o =>
    match w.answer? o with
    | some a => w.Believable o a
    | none => True
  | _ => True

instance (w : Watched T sz ω) : DecidablePred w.InRange
  | .act _ => isTrue trivial
  | .call _ _ => isTrue trivial
  | .observe o =>
    match h : w.answer? o with
    | some a => decidable_of_iff (w.Believable o a) (by simp only [InRange, h])
    | none => isTrue (by simp only [InRange, h])

/-- How many items were popped that the first load did not count as pushed, as far as the counters
tell. -/
def overrun (w : Watched T sz ω) (o : ω) : Nat :=
  (w.traced.popped.length - w.written o) % 2 ^ 64

/-- **The condition**: the consumer has not overtaken a `size()` or a `full()` at its second load. The
counters do not show that it has when it is nearly a whole turn of them ahead, and a `full()` may be
overtaken if the buffer was full before. -/
def NotOvertaken (w : Watched T sz ω) : WatchedAction T ω → Prop
  | .observe o =>
    match w.observers o with
    | .loaded .size _ => w.overrun o = 0 ∨ 2 ^ 64 ≤ w.overrun o + capacity sz
    | .loaded .full _ =>
      w.wasFull o = true ∨ w.overrun o = 0 ∨ 2 ^ 64 < w.overrun o + capacity sz
    | _ => True
  | _ => True

/-! ## The invariant -/

/-- What a thread knows that is in a query. -/
def ObserverOk (w : Watched T sz ω) (o : ω) : Observer → Prop
  | .idle => True
  | .start _ => w.isFull = true → w.wasFull o = true
  | .loaded _ ws =>
    ws = .ofNat (w.written o) ∧ w.written o ≤ w.traced.popped.length + capacity sz ∧
      (w.written o = w.traced.popped.length + capacity sz → w.wasFull o = true)

structure Inv (w : Watched T sz ω) : Prop where
  traced : HPRingBuffer.Inv w.traced
  observers : ∀ o, w.ObserverOk o (w.observers o)

omit [DecidableEq ω] in
theorem inv_create (buffer : Fin sz.size → T) : (create ω buffer).Inv :=
  ⟨HPRingBuffer.inv_create buffer, fun _ => trivial⟩

omit [DecidableEq ω] in
theorem isFull_iff {w : Watched T sz ω} (h : w.Inv) :
    w.isFull = true ↔ w.traced.pushed.length = w.traced.popped.length + capacity sz := by
  have hle := h.traced.length_le
  unfold isFull Traced.stored
  rw [decide_eq_true_iff]
  omega

end Watched

theorem Traced.length_popped_le (moved : T → T) (t : Traced T sz) (a : Action T) :
    t.popped.length ≤ (t.step moved a).popped.length := by
  unfold Traced.step Traced.record
  cases t.state.step moved a with
  | mk s outcome =>
    cases outcome with
    | none => exact le_rfl
    | some outcome =>
      cases outcome with
      | popped value =>
        rw [List.length_append]
        exact Nat.le_add_right _ _
      | _ => exact le_rfl

namespace Watched

variable [DecidableEq ω] {w : Watched T sz ω}

omit [DecidableEq ω] in
theorem Inv.act (h : w.Inv) (moved : T → T) (a : Action T) : (w.act moved a).Inv := by
  have htraced := h.traced.step moved a
  refine ⟨htraced, fun o => ?_⟩
  have ho := h.observers o
  have hpopped := w.traced.length_popped_le moved a
  unfold Watched.act
  dsimp only
  revert ho
  cases w.observers o with
  | idle => exact fun _ => trivial
  | start q =>
    intro ho hfull
    exact Bool.or_eq_true_iff.mpr (.inr hfull)
  | loaded q ws =>
    rintro ⟨hws, hle, hfull⟩
    refine ⟨hws, ?_, fun heq => ?_⟩
    · dsimp only
      omega
    · -- nothing was popped since the buffer was full
      dsimp only at heq ⊢
      rw [hfull (by omega), Bool.true_or]

theorem Inv.setObserver (h : w.Inv) (o : ω) (obs : Observer) (written : ℕ) (wasFull : Bool)
    (ho : ObserverOk { w with
        observers := Function.update w.observers o obs
        written := Function.update w.written o written
        wasFull := Function.update w.wasFull o wasFull } o obs) :
    Inv { w with
      observers := Function.update w.observers o obs
      written := Function.update w.written o written
      wasFull := Function.update w.wasFull o wasFull } := by
  refine ⟨h.traced, fun o' => ?_⟩
  dsimp only
  by_cases heq : o' = o
  · subst heq
    rw [Function.update_self]
    exact ho
  · have ho' := h.observers o'
    rw [Function.update_of_ne heq]
    unfold ObserverOk at ho' ⊢
    dsimp only
    rw [Function.update_of_ne heq, Function.update_of_ne heq]
    exact ho'

theorem Inv.call (h : w.Inv) (o : ω) (q : Query) : (w.call o q).Inv := by
  unfold Watched.call
  cases ho : w.observers o with
  | idle =>
    have hset := h.setObserver o (.start q) (w.written o) w.isFull (fun hfull => by
        dsimp only
        rw [Function.update_self]
        exact hfull)
    rw [Function.update_eq_self] at hset
    exact hset
  | _ => exact h

theorem Inv.observe (h : w.Inv) (o : ω) : (w.observe o).Inv := by
  unfold Watched.observe
  have hknown := h.observers o
  cases ho : w.observers o with
  | idle => exact h
  | start q =>
    rw [ho] at hknown
    have hset := h.setObserver o (.loaded q w.traced.state.write_sequence_)
      w.traced.pushed.length (w.wasFull o) (by
        unfold ObserverOk
        dsimp only
        rw [Function.update_self, Function.update_self]
        exact ⟨h.traced.write, h.traced.bound, fun hlen => hknown ((isFull_iff h).mpr hlen)⟩)
    rw [Function.update_eq_self] at hset
    exact hset
  | loaded q ws =>
    have hset := h.setObserver o .idle (w.written o) (w.wasFull o) trivial
    rw [Function.update_eq_self, Function.update_eq_self] at hset
    exact hset

theorem Inv.step (h : w.Inv) (moved : T → T) (a : WatchedAction T ω) : (w.step moved a).Inv := by
  cases a with
  | act a => exact h.act moved a
  | call o q => exact h.call o q
  | observe o => exact h.observe o

/-! ## The answers -/

section Answers

variable {o : ω} {q : Query} {ws : UInt64}

omit [DecidableEq ω] in
theorem Inv.toNat_sub (h : w.Inv) (ho : w.observers o = .loaded q ws) :
    (w.written o = w.traced.popped.length + (ws - w.traced.state.read_sequence_).toNat ∧
      w.overrun o = 0) ∨
    (w.written o < w.traced.popped.length ∧
      (ws - w.traced.state.read_sequence_).toNat = (2 ^ 64 - w.overrun o) % 2 ^ 64) := by
  have hknown := h.observers o
  rw [ho] at hknown
  obtain ⟨rfl, hle, -⟩ := hknown
  have hfits := sz.fits
  unfold capacity at hle
  rw [h.traced.read]
  unfold overrun
  by_cases hover : w.written o < w.traced.popped.length
  · exact .inr ⟨hover, SequenceCounter.toNat_sub_overrun hover.le⟩
  · refine .inl ⟨?_, ?_⟩
    · rw [SequenceCounter.toNat_sub (by omega) (by omega)]
      omega
    · rw [Nat.sub_eq_zero_of_le (by omega), Nat.zero_mod]

omit [DecidableEq ω] in
theorem Inv.size_le_iff (h : w.Inv) (ho : w.observers o = .loaded q ws) :
    (ws - w.traced.state.read_sequence_).toNat ≤ capacity sz ↔
      w.overrun o = 0 ∨ 2 ^ 64 ≤ w.overrun o + capacity sz := by
  have hknown := h.observers o
  rw [ho] at hknown
  have hle := hknown.2.1
  have hlt : w.overrun o < 2 ^ 64 := Nat.mod_lt _ (by decide)
  obtain ⟨hsub, hzero⟩ | ⟨-, hsub⟩ := h.toNat_sub ho
  · omega
  · rw [hsub]
    omega

omit [DecidableEq ω] in
theorem Inv.full_iff (h : w.Inv) (ho : w.observers o = .loaded q ws) :
    (sz.mask ≤ ws - w.traced.state.read_sequence_ → w.wasFull o = true) ↔
      w.wasFull o = true ∨ w.overrun o = 0 ∨ 2 ^ 64 < w.overrun o + capacity sz := by
  have hknown := h.observers o
  rw [ho] at hknown
  obtain ⟨-, hle, hwas⟩ := hknown
  have hlt : w.overrun o < 2 ^ 64 := Nat.mod_lt _ (by decide)
  have hfits := sz.fits
  have hsize := sz.valid.1
  have hmask : sz.mask.toNat = capacity sz := by
    rw [RingSize.mask, UInt64.toNat_ofNat', Nat.mod_eq_of_lt (by omega), capacity]
  rw [UInt64.le_iff_toNat_le, hmask]
  unfold capacity at hle hwas ⊢
  obtain ⟨hsub, hzero⟩ | ⟨-, hsub⟩ := h.toNat_sub ho
  · -- not overtaken: the buffer was full at the first load
    constructor
    · exact fun _ => .inr (.inl hzero)
    · exact fun _ hcap => hwas (by omega)
  · rw [hsub]
    constructor
    · intro himp
      by_cases hfull : w.wasFull o = true
      · exact .inl hfull
      · have hcap := mt himp hfull
        omega
    · rintro (hfull | hover) hcap
      · exact hfull
      · omega

omit [DecidableEq ω] in
theorem Inv.inRange_iff (h : w.Inv) (a : WatchedAction T ω) : w.InRange a ↔ w.NotOvertaken a := by
  cases a with
  | act a => exact Iff.rfl
  | call o q => exact Iff.rfl
  | observe o =>
    unfold InRange NotOvertaken answer?
    dsimp only
    cases ho : w.observers o with
    | idle => exact Iff.rfl
    | start q => exact Iff.rfl
    | loaded q ws =>
      cases q with
      | empty => exact Iff.rfl
      | full =>
        refine Iff.trans ?_ (h.full_iff ho)
        exact imp_congr decide_eq_true_iff Iff.rfl
      | size => exact h.size_le_iff ho

end Answers

/-- **Queries answer in range as long as the consumer does not overtake them.** In every interleaving
of a producer, a consumer and any number of querying threads, every `size()` is at most the capacity
and every `full()` that answers true was full during the call exactly when no query is overtaken. -/
theorem queries_in_range_iff (moved : T → T) (buffer : Fin sz.size → T)
    (acts : List (WatchedAction T ω)) :
    Run.Along (step moved) InRange (create ω buffer) acts ↔
      Run.Along (step moved) NotOvertaken (create ω buffer) acts :=
  Run.along_congr (fun _ a h => Inv.inRange_iff h a) (fun _ a h _ => h.step moved a)
    (inv_create buffer)

/-- An empty buffer of four slots: a query loads `write_sequence_`, one item goes through the buffer,
and the query goes on. -/
def overtaken (q : Query) : List (WatchedAction Nat Unit) :=
  [.call () q, .observe (),
    .act (.push 7 false), .act .produce, .act .produce, .act .produce, .act .produce,
    .act (.pop false), .act .consume, .act .consume, .act .consume, .act .consume]

/-- The buffer never held more than one item of three. -/
theorem overtaken_out_of_range :
    let sz : RingSize := ⟨4, by decide, by decide⟩
    let init : Watched Nat sz Unit := create Unit fun _ => 0
    (((overtaken .size).foldl (step id) init).answer? () = some (.size (2 ^ 64 - 1)) ∧
      ((overtaken .full).foldl (step id) init).answer? () = some (.full true)) ∧
    ¬ Run.Along (step id) InRange init (overtaken .size ++ [.observe ()]) ∧
    ¬ Run.Along (step id) InRange init (overtaken .full ++ [.observe ()]) := by
  decide

end Watched

end HPRingBuffer

end HftSdk
