import CallTrace.Json.Decode

/-!
What decoders accept. Where a decoder gives a value, each part of the value was given by the decoder
of that part, which may open one level fewer, or stands for a field that was left out.
-/

namespace CallTrace

theorem bind_eq_ok {x : Except ε α} {f : α → Except ε β} {b : β} :
    (x >>= f) = .ok b ↔ ∃ a, x = .ok a ∧ f a = .ok b := by
  cases x <;> simp [bind, Except.bind]

theorem map_eq_ok {x : Except ε α} {f : α → β} {b : β} :
    x.map f = .ok b ↔ ∃ a, x = .ok a ∧ f a = b := by
  cases x <;> simp [Except.map]

namespace Json

namespace Decode

theorem lt_of_natBelow {bound levels n : Nat} {r : Reading}
    (h : natBelow bound levels r = .ok n) : n < bound := by
  cases r with
  | num lexeme =>
      simp only [natBelow] at h
      split at h
      · rename_i hplain
        cases h
        rw [Bool.and_eq_true, decide_eq_true_eq] at hplain
        exact hplain.2
      · cases h
  | _ => cases h

theorem optional_eq_some {item : Decoder α} {levels : Nat} {r : Reading} {a : α}
    (h : optional item levels r = .ok (some a)) : item levels r = .ok a := by
  cases r with
  | null => cases h
  | _ =>
      obtain ⟨b, hb, heq⟩ := map_eq_ok.mp h
      cases heq
      exact hb

theorem exists_of_mem_items {item : Reading → Except Fault α} {closed : Bool}
    {readings : List Reading} {as : List α} (h : items item closed readings = .ok as) :
    ∀ a ∈ as, ∃ r, item r = .ok a := by
  induction readings generalizing as with
  | nil =>
      cases closed with
      | false => cases h
      | true =>
          cases h
          simp
  | cons r rest ih =>
      obtain ⟨a, ha, h⟩ := bind_eq_ok.mp h
      obtain ⟨as, has, h⟩ := bind_eq_ok.mp h
      cases h
      exact List.forall_mem_cons.mpr ⟨⟨r, ha⟩, ih has⟩

theorem list_accepts {item : Decoder α} {levels : Nat} {r : Reading} {as : List α}
    (h : list item levels r = .ok as) :
    ∃ below, levels = below + 1 ∧ ∀ a ∈ as, ∃ r, item below r = .ok a := by
  cases levels with
  | zero => cases h
  | succ below =>
      cases r with
      | arr readings closed => exact ⟨below, rfl, exists_of_mem_items h⟩
      | _ => cases h

end Decode

/-- The field can have this value: it was read from something, or stands for the field left out. -/
def Field.Gives (field : Field α) (a : α) : Prop :=
  field.absent = some a ∨ ∃ r, field.read r = .ok a

namespace Layout

def Filled : Layout ts → Row ts → Prop
  | .nil, _ => True
  | .cons field rest, (a, row) => field.Gives a ∧ rest.Filled row

def Drafted : Layout ts → Draft ts → Prop
  | .nil, _ => True
  | .cons field rest, (slot, draft) =>
      (∀ a, slot = some a → ∃ r, field.read r = .ok a) ∧ rest.Drafted draft

theorem drafted_blank (layout : Layout ts) : layout.Drafted layout.blank := by
  induction layout with
  | nil => trivial
  | cons field rest ih => exact ⟨nofun, ih⟩

theorem Drafted.put {layout : Layout ts} {key : String} {r : Reading} {draft draft' : Draft ts}
    (h : layout.put key r draft = .ok draft') (hdraft : layout.Drafted draft) :
    layout.Drafted draft' := by
  induction layout with
  | nil => trivial
  | cons field rest ih =>
      obtain ⟨slot, draft⟩ := draft
      obtain ⟨hslot, hdraft⟩ := hdraft
      by_cases hkey : field.key == key
      · simp only [Layout.put, if_pos hkey] at h
        cases slot with
        | some a => cases h
        | none =>
            obtain ⟨a, ha, rfl⟩ := map_eq_ok.mp h
            refine ⟨fun b hb => ?_, hdraft⟩
            cases hb
            exact ⟨r, ha⟩
      · simp only [Layout.put, if_neg hkey] at h
        obtain ⟨draft', hput, rfl⟩ := map_eq_ok.mp h
        exact ⟨hslot, ih hput hdraft⟩

theorem Drafted.putAll {layout : Layout ts} {closed : Bool}
    {fields : List (Option String × Reading)} {draft draft' : Draft ts}
    (h : layout.putAll closed draft fields = .ok draft') (hdraft : layout.Drafted draft) :
    layout.Drafted draft' := by
  induction fields generalizing draft with
  | nil =>
      cases closed with
      | false => cases h
      | true =>
          cases h
          exact hdraft
  | cons field rest ih =>
      obtain ⟨key, r⟩ := field
      cases key with
      | none => cases h
      | some key =>
          obtain ⟨next, hput, h⟩ := bind_eq_ok.mp h
          exact ih h (hdraft.put hput)

theorem Drafted.complete {layout : Layout ts} {draft : Draft ts} {row : Row ts}
    (hdraft : layout.Drafted draft) (h : layout.complete draft = .ok row) :
    layout.Filled row := by
  induction layout with
  | nil => trivial
  | cons field rest ih =>
      obtain ⟨slot, draft⟩ := draft
      obtain ⟨hslot, hdraft⟩ := hdraft
      cases hvalue : slot.or field.absent with
      | none => simp [Layout.complete, hvalue] at h
      | some a =>
          simp only [Layout.complete, hvalue] at h
          obtain ⟨row, hrow, rfl⟩ := map_eq_ok.mp h
          refine ⟨?_, ih hdraft hrow⟩
          rcases Option.or_eq_some_iff.mp hvalue with htaken | ⟨-, habsent⟩
          · exact .inr (hslot a htaken)
          · exact .inl habsent

theorem filled_of_ofItems {layout : Layout ts} {closed : Bool} {readings : List Reading}
    {row : Row ts} (h : layout.ofItems closed readings = .ok row) : layout.Filled row := by
  induction layout generalizing readings with
  | nil => trivial
  | cons field rest ih =>
      cases readings with
      | nil =>
          cases closed with
          | false => cases h
          | true =>
              cases habsent : field.absent with
              | none => simp [ofItems, habsent] at h
              | some a =>
                  simp only [ofItems, habsent, if_true] at h
                  obtain ⟨row, hrow, rfl⟩ := map_eq_ok.mp h
                  exact ⟨.inl habsent, ih hrow⟩
      | cons r readings =>
          obtain ⟨a, ha, h⟩ := bind_eq_ok.mp h
          obtain ⟨row, hrow, h⟩ := bind_eq_ok.mp h
          cases h
          exact ⟨.inr ⟨r, ha⟩, ih hrow⟩

/-- As an object or as an array, a record is read field by field. -/
theorem filled_of_read {layout : Layout ts} {r : Reading} {row : Row ts}
    (h : layout.read r = .ok row) : layout.Filled row := by
  cases r with
  | obj fields closed =>
      obtain ⟨draft, hput, h⟩ := bind_eq_ok.mp h
      exact (layout.drafted_blank.putAll hput).complete h
  | arr readings closed => exact filled_of_ofItems h
  | _ => cases h

end Layout

theorem Decode.record_accepts {layout : Nat → Layout ts} {make : Row ts → α} {levels : Nat}
    {r : Reading} {a : α} (h : record layout make levels r = .ok a) :
    ∃ below row, levels = below + 1 ∧ (layout below).Filled row ∧ make row = a := by
  cases levels with
  | zero => cases h
  | succ below =>
      obtain ⟨row, hrow, rfl⟩ := map_eq_ok.mp h
      exact ⟨below, row, rfl, Layout.filled_of_read hrow, rfl⟩

end Json

end CallTrace
