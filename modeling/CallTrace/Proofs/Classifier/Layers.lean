import CallTrace.Classifier

namespace CallTrace

theorem Layer.isUnknown_iff {layer : Layer} : layer.isUnknown = true ↔ layer = .unknown := by
  cases layer
  simp [isUnknown, unknown]

namespace Classifier

theorem firstKnown_cons (layer : Layer) (rest : List Layer) :
    firstKnown (layer :: rest) = if layer.isUnknown then firstKnown rest else layer := by
  cases hunknown : layer.isUnknown <;> simp [firstKnown, hunknown]

theorem firstKnown_unknown (rest : List Layer) :
    firstKnown (.unknown :: rest) = firstKnown rest := by
  rw [firstKnown_cons, if_pos (Layer.isUnknown_iff.mpr rfl)]

theorem firstKnown_of_known {layer : Layer} (h : layer ≠ .unknown) (rest : List Layer) :
    firstKnown (layer :: rest) = layer := by
  rw [firstKnown_cons, if_neg (mt Layer.isUnknown_iff.mp h)]

theorem firstKnown_singleton (layer : Layer) : firstKnown [layer] = layer := by
  by_cases hunknown : layer = .unknown
  · rw [hunknown, firstKnown_unknown]
    rfl
  · exact firstKnown_of_known hunknown []

theorem firstKnown_append (layers more : List Layer) :
    firstKnown (layers ++ more) = firstKnown (firstKnown layers :: more) := by
  induction layers with
  | nil => exact (firstKnown_unknown more).symm
  | cons layer rest ih =>
      by_cases hunknown : layer = .unknown
      · rw [hunknown, List.cons_append, firstKnown_unknown, firstKnown_unknown, ih]
      · rw [List.cons_append, firstKnown_of_known hunknown, firstKnown_of_known hunknown,
          firstKnown_of_known hunknown]

theorem firstKnown_eq_unknown_iff {layers : List Layer} :
    firstKnown layers = .unknown ↔ ∀ layer ∈ layers, layer = .unknown := by
  induction layers with
  | nil => simp [firstKnown]
  | cons layer rest ih =>
      by_cases hunknown : layer = .unknown
      · subst hunknown
        simp [firstKnown_unknown, ih]
      · simp [firstKnown_of_known hunknown, hunknown]

theorem firstKnown_mem {layers : List Layer} (h : firstKnown layers ≠ .unknown) :
    firstKnown layers ∈ layers := by
  induction layers with
  | nil => exact absurd rfl h
  | cons layer rest ih =>
      by_cases hunknown : layer = .unknown
      · subst hunknown
        rw [firstKnown_unknown] at h ⊢
        exact List.mem_cons_of_mem _ (ih h)
      · rw [firstKnown_of_known hunknown]
        exact List.mem_cons_self

end Classifier

end CallTrace
