import CallTrace.Resolution

/-!
What the meaning of a call depends on. Of the code it takes the name of the class that a receiver
stands for and the classes that the types in its scope mean; two codes that agree on these give the
call the same meaning.
-/

namespace CallTrace

def Scope.types (scope : Scope) : List String :=
  (scope.fields ++ scope.locals).map Prod.snd

theorem mem_of_lookup_eq_some {entries : List (String × α)} {name : String} {a : α}
    (h : entries.lookup name = some a) : (name, a) ∈ entries := by
  obtain ⟨before, after, rfl, -⟩ := List.lookup_eq_some_iff.mp h
  simp

namespace Scope

variable {scope : Scope} {name type : String}

theorem mem_types_of_field? (h : scope.field? name = some type) : type ∈ scope.types :=
  List.mem_map.mpr ⟨_, List.mem_append_left _ (mem_of_lookup_eq_some h), rfl⟩

theorem mem_types_of_local? (h : scope.local? name = some type) : type ∈ scope.types := by
  have hmem := List.mem_reverse.mp (mem_of_lookup_eq_some h)
  exact List.mem_map.mpr ⟨_, List.mem_append_right _ hmem, rfl⟩

theorem mem_types_of_lookup? (h : scope.lookup? name = some type) : type ∈ scope.types := by
  rcases Option.or_eq_some_iff.mp h with hlocal | ⟨-, hfield⟩
  · exact mem_types_of_local? hlocal
  · exact mem_types_of_field? hfield

end Scope

namespace Codebase

def foundName? (code : Codebase) (name : String) : Option String :=
  (code.find? name).map fun c => c.name

theorem canonicalClass_eq_getD (code : Codebase) (declared : String) :
    code.canonicalClass declared =
      (code.foundName? (TypeName.base declared)).getD (TypeName.base declared) := by
  unfold canonicalClass foundName?
  cases code.find? (TypeName.base declared) <;> rfl

theorem fieldsOf_eq_getD (code : Codebase) (className : String) :
    code.fieldsOf className =
      ((code.findSimple? className).map fun c => c.fields.filterMap Binding.typed?).getD [] := by
  unfold fieldsOf
  cases code.findSimple? className <;> rfl

theorem owner_of_receiver? {code : Codebase} {scope : Scope} {onThis : Bool} {name owner : String}
    (h : code.receiver? scope onThis name = some owner) :
    (∃ type ∈ scope.types, code.canonicalClass type = owner) ∨
      code.foundName? name = some owner := by
  unfold receiver? at h
  split at h
  · obtain ⟨type, hfield, howner⟩ := Option.map_eq_some_iff.mp h
    exact .inl ⟨type, Scope.mem_types_of_field? hfield, howner⟩
  · split at h
    · rename_i type hlookup
      exact .inl ⟨type, Scope.mem_types_of_lookup? hlookup, Option.some.inj h⟩
    · exact .inr h

/-- Where a call finds a class, its method is the last part of the text, and the class is that of
the scope, of a type in the scope, or the one that the rest of the text finds. -/
theorem resolve_eq_resolved {code : Codebase} {scope : Scope} {raw owner method : String}
    (h : code.resolve scope raw = some (.resolved owner method)) :
    method = Signature.method (CallText.parse raw).text ∧ method ≠ "" ∧
      (owner = scope.className ∨ (∃ type ∈ scope.types, code.canonicalClass type = owner) ∨
        Signature.qualifier (CallText.parse raw).text ≠ "" ∧
        code.foundName? (Signature.qualifier (CallText.parse raw).text) = some owner) := by
  unfold resolve at h
  dsimp only at h
  split at h
  · contradiction
  · split at h
    · cases h
    · rename_i hmethod
      rw [beq_iff_eq] at hmethod
      split at h
      · cases h
        exact ⟨rfl, hmethod, .inl rfl⟩
      · rename_i hname
        rw [beq_iff_eq] at hname
        split at h <;> cases h
        rename_i hreceiver
        have howner := owner_of_receiver? hreceiver
        exact ⟨rfl, hmethod, .inr (howner.imp_right fun hfound => ⟨hname, hfound⟩)⟩

section Congr

variable {code other : Codebase} {scope : Scope}
  (htypes : ∀ type ∈ scope.types, other.canonicalClass type = code.canonicalClass type)

include htypes

theorem receiver?_congr {name : String} (hname : other.foundName? name = code.foundName? name)
    (onThis : Bool) : other.receiver? scope onThis name = code.receiver? scope onThis name := by
  unfold receiver?
  split
  · cases hfield : scope.field? name with
    | none => rfl
    | some type => exact congrArg some (htypes type (Scope.mem_types_of_field? hfield))
  · cases hlookup : scope.lookup? name with
    | none => exact hname
    | some type => exact congrArg some (htypes type (Scope.mem_types_of_lookup? hlookup))

theorem resolve_congr {raw : String}
    (hname : Signature.qualifier (CallText.parse raw).text ≠ "" →
      other.foundName? (Signature.qualifier (CallText.parse raw).text) =
        code.foundName? (Signature.qualifier (CallText.parse raw).text)) :
    other.resolve scope raw = code.resolve scope raw := by
  by_cases hplain : Signature.qualifier (CallText.parse raw).text = ""
  · simp only [resolve, hplain, beq_self_eq_true, if_true]
  · simp only [resolve, receiver?_congr htypes (hname hplain)]

end Congr

end Codebase

end CallTrace
