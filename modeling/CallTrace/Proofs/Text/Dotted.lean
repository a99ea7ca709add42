import CallTrace.Signature
import Mathlib.Data.List.TakeWhile

namespace CallTrace

namespace Text

theorem splitLastDot?_append (before : List Char) {after : List Char} (hafter : '.' ∉ after) :
    splitLastDot? (before ++ '.' :: after) = some (before, after) := by
  have hreverse : (before ++ '.' :: after).reverse = after.reverse ++ '.' :: before.reverse := by
    simp
  have hplain : ∀ c ∈ after.reverse, (c != '.') = true := by
    intro c hc
    rw [List.mem_reverse] at hc
    simpa using ne_of_mem_of_not_mem hc hafter
  rw [splitLastDot?, hreverse, List.dropWhile_append_of_pos hplain,
    List.takeWhile_append_of_pos hplain]
  simp

theorem splitLastDot?_of_not_mem {cs : List Char} (h : '.' ∉ cs) : splitLastDot? cs = none := by
  have hrest : cs.reverse.dropWhile (· != '.') = [] := by
    rw [List.dropWhile_eq_nil_iff]
    intro c hc
    rw [List.mem_reverse] at hc
    simpa using ne_of_mem_of_not_mem hc h
  rw [splitLastDot?, hrest]

theorem afterLastDot_of_not_mem {s : String} (h : '.' ∉ s.toList) : afterLastDot s = s := by
  rw [afterLastDot, splitLastDot?_of_not_mem h]

end Text

namespace Signature

theorem splitLastDot?_join (owner : String) {method : String} (hmethod : '.' ∉ method.toList) :
    Text.splitLastDot? (join owner method).toList = some (owner.toList, method.toList) := by
  have hchars : (join owner method).toList = owner.toList ++ '.' :: method.toList := by
    simp [join]
  rw [hchars, Text.splitLastDot?_append _ hmethod]

theorem owner?_join (owner : String) {method : String} (hmethod : '.' ∉ method.toList) :
    owner? (join owner method) = some owner := by
  simp [owner?, Text.beforeLastDot?, splitLastDot?_join owner hmethod]

theorem qualifier_join (owner : String) {method : String} (hmethod : '.' ∉ method.toList) :
    qualifier (join owner method) = owner := by
  rw [qualifier, owner?_join owner hmethod, Option.getD_some]

theorem method_join (owner : String) {method : String} (hmethod : '.' ∉ method.toList) :
    Signature.method (join owner method) = method := by
  simp [Signature.method, Text.afterLastDot, splitLastDot?_join owner hmethod]

theorem qualifier_of_not_mem {s : Signature} (h : '.' ∉ s.toList) : qualifier s = "" := by
  simp [qualifier, owner?, Text.beforeLastDot?, Text.splitLastDot?_of_not_mem h]

theorem exists_join {s : Signature} (h : '.' ∈ s.toList) :
    ∃ owner method, s = join owner method ∧ '.' ∉ method.toList := by
  obtain ⟨after, before, heq, hafter⟩ :=
    List.eq_append_cons_of_mem (List.mem_reverse.mpr h)
  have hchars : s.toList = before.reverse ++ '.' :: after.reverse := by
    simpa using congrArg List.reverse heq
  refine ⟨String.ofList before.reverse, String.ofList after.reverse, ?_, by simpa using hafter⟩
  rw [← String.toList_inj, hchars]
  simp [join]

theorem not_mem_method (s : Signature) : '.' ∉ (Signature.method s).toList := by
  by_cases hdot : '.' ∈ s.toList
  · obtain ⟨owner, method, rfl, hmethod⟩ := exists_join hdot
    rw [method_join owner hmethod]
    exact hmethod
  · rw [Signature.method, Text.afterLastDot_of_not_mem hdot]
    exact hdot

theorem join_left_inj {owner owner' method : String} :
    join owner method = join owner' method ↔ owner = owner' := by
  simp [join, String.append_left_inj]

end Signature

namespace Text

/-- What stands behind the last dot of a name, or all of a name without dots. -/
def LastSegment (name segment : String) : Prop :=
  '.' ∉ segment.toList ∧ (name = segment ∨ ∃ front, name = front ++ "." ++ segment)

theorem afterLastDot_eq_iff {name segment : String} :
    afterLastDot name = segment ↔ LastSegment name segment := by
  constructor
  · rintro rfl
    refine ⟨Signature.not_mem_method name, ?_⟩
    by_cases hdot : '.' ∈ name.toList
    · obtain ⟨front, last, rfl, hlast⟩ := Signature.exists_join hdot
      exact .inr ⟨front, congrArg (Signature.join front) (Signature.method_join front hlast).symm⟩
    · exact .inl (afterLastDot_of_not_mem hdot).symm
  · rintro ⟨hsegment, rfl | ⟨front, rfl⟩⟩
    · exact afterLastDot_of_not_mem hsegment
    · exact Signature.method_join front hsegment

end Text

end CallTrace
