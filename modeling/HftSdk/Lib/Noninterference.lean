import HftSdk.Lib.Run

/-!
# Noninterference

An observer is concerned with some of the inputs of a deterministic system and knows its state
through a view. `Unwinding`: the inputs that do not concern him leave the view alone, and the others
act on states that look the same to him in the same way. Then all he ever sees is what the inputs that
concern him come to by themselves (`Unwinding.observed_eq`): the others may be left out. More
generally they may be left out of a run as long as they leave alone how it relates to the shorter one
(`observed_of_along`).
-/

namespace Run

variable {σ τ α ω : Type*} (out : σ → α → ω × σ) (concerns : α → Prop) [DecidablePred concerns]

/-- What a run yields for the inputs that concern the observer. -/
def observed (s : σ) : List α → List ω
  | [] => []
  | a :: as =>
    if concerns a then (out s a).1 :: observed (out s a).2 as else observed (out s a).2 as

/-- The two conditions on one step, in states that satisfy an invariant. -/
structure Unwinding (I : σ → Prop) (view : σ → τ) : Prop where
  keeps : ∀ s a, I s → I (out s a).2
  respects : ∀ s a, I s → ¬ concerns a → view (out s a).2 = view s
  consistent : ∀ s t a, I s → I t → view s = view t → concerns a →
    (out s a).1 = (out t a).1 ∧ view (out s a).2 = view (out t a).2

variable {out concerns} {I : σ → Prop} {view : σ → τ}

theorem observed_of_along {R : σ → σ → Prop} {C : σ → α → Prop}
    (hskip : ∀ s t a, R s t → C s a → ¬ concerns a → R (out s a).2 t)
    (hstep : ∀ s t a, R s t → C s a → concerns a →
      (out s a).1 = (out t a).1 ∧ R (out s a).2 (out t a).2)
    {s t : σ} {as : List α} (h : Along (fun s a => (out s a).2) C s as) (hR : R s t) :
    observed out concerns s as = outputs out t (as.filter concerns) ∧
      R (final out s as) (final out t (as.filter concerns)) := by
  induction as generalizing s t with
  | nil => exact ⟨rfl, hR⟩
  | cons a as ih =>
    by_cases ha : concerns a
    · obtain ⟨hout, hnext⟩ := hstep s t a hR h.1 ha
      obtain ⟨hrest, hfinal⟩ := ih h.2 hnext
      have hfilter : (a :: as).filter concerns = a :: as.filter concerns :=
        List.filter_cons_of_pos (decide_eq_true ha)
      rw [observed, if_pos ha, hfilter, outputs, hout, hrest]
      exact ⟨rfl, hfinal⟩
    · have hfilter : (a :: as).filter concerns = as.filter concerns :=
        List.filter_cons_of_neg (by simpa using ha)
      rw [observed, if_neg ha, hfilter]
      exact ih h.2 (hskip s t a hR h.1 ha)

/-- **Noninterference**: what an observer sees of a run is what the inputs that concern him come to by
themselves. -/
theorem Unwinding.observed_eq (h : Unwinding out concerns I view) {s : σ} (hs : I s) (as : List α) :
    observed out concerns s as = outputs out s (as.filter concerns) ∧
      view (final out s as) = view (final out s (as.filter concerns)) := by
  obtain ⟨hout, -, -, hview⟩ := observed_of_along
    (R := fun s t => I s ∧ I t ∧ view s = view t) (C := fun _ _ => True)
    (fun s t a hR _ ha => ⟨h.keeps s a hR.1, hR.2.1, (h.respects s a hR.1 ha).trans hR.2.2⟩)
    (fun s t a hR _ ha => by
      obtain ⟨hout, hnext⟩ := h.consistent s t a hR.1 hR.2.1 hR.2.2 ha
      exact ⟨hout, h.keeps s a hR.1, h.keeps t a hR.2.1, hnext⟩)
    (along_of_forall (fun _ _ => trivial) s as) ⟨hs, hs, rfl⟩
  exact ⟨hout, hview⟩

end Run
