import CallTrace.Proofs.Text.Dotted
import CallTrace.Text.Blank
import Mathlib.Data.List.DropRight

namespace CallTrace

namespace Text

def startsBlank (s : String) : Bool :=
  s.toList.head?.any isBlankChar

def endsBlank (s : String) : Bool :=
  s.toList.getLast?.any isBlankChar

theorem dropWhile_eq_self_iff {p : Char → Bool} {cs : List Char} :
    cs.dropWhile p = cs ↔ cs.head?.any p = false := by
  cases cs with
  | nil => simp
  | cons c rest => simp [List.dropWhile_eq_self_iff]

theorem dropEndWhile_eq_self_iff {p : Char → Bool} {cs : List Char} :
    dropEndWhile p cs = cs ↔ cs.getLast?.any p = false := by
  rw [dropEndWhile, List.reverse_eq_iff, dropWhile_eq_self_iff, List.head?_reverse]

theorem mem_of_mem_dropBothWhile {p : Char → Bool} {cs : List Char} {c : Char}
    (h : c ∈ dropBothWhile p cs) : c ∈ cs := by
  rw [dropBothWhile, dropEndWhile, List.mem_reverse] at h
  have hkept := (List.dropWhile_suffix p).mem h
  exact (List.dropWhile_suffix p).mem (List.mem_reverse.mp hkept)

theorem head?_dropBothWhile {p : Char → Bool} {cs : List Char} {c : Char}
    (h : (dropBothWhile p cs).head? = some c) : p c = false := by
  obtain ⟨cut, hcut⟩ : dropBothWhile p cs <+: cs.dropWhile p := List.rdropWhile_prefix p _
  have hhead := List.head?_dropWhile_not p cs
  rw [← hcut, List.head?_append, h] at hhead
  exact hhead

theorem getLast?_dropBothWhile {p : Char → Bool} {cs : List Char} {c : Char}
    (h : (dropBothWhile p cs).getLast? = some c) : p c = false := by
  rw [dropBothWhile, dropEndWhile, List.getLast?_reverse] at h
  have hhead := List.head?_dropWhile_not p (cs.dropWhile p).reverse
  rw [h] at hhead
  exact hhead

theorem dropBothWhile_eq_self_iff {p : Char → Bool} {cs : List Char} :
    dropBothWhile p cs = cs ↔ cs.head?.any p = false ∧ cs.getLast?.any p = false := by
  rw [← dropWhile_eq_self_iff, ← dropEndWhile_eq_self_iff]
  constructor
  · intro h
    have hend : (dropBothWhile p cs).length ≤ (cs.dropWhile p).length :=
      (List.rdropWhile_prefix p _).length_le
    rw [h] at hend
    have hstart : cs.dropWhile p = cs := (List.dropWhile_suffix p).eq_of_length_le hend
    rw [dropBothWhile, hstart] at h
    exact ⟨hstart, h⟩
  · rintro ⟨hstart, hend⟩
    rw [dropBothWhile, hstart, hend]

theorem trim_eq_self_iff {s : String} :
    trim s = s ↔ startsBlank s = false ∧ endsBlank s = false := by
  rw [trim, ← String.toList_inj, String.toList_ofList]
  exact dropBothWhile_eq_self_iff

theorem startsBlank_of_plain {s : String} (h : ∀ c ∈ s.toList, isBlankChar c = false) :
    startsBlank s = false := by
  cases hhead : s.toList.head? with
  | none => rw [startsBlank, hhead, Option.any_none]
  | some c => rw [startsBlank, hhead, Option.any_some, h c (List.mem_of_mem_head? hhead)]

theorem endsBlank_of_plain {s : String} (h : ∀ c ∈ s.toList, isBlankChar c = false) :
    endsBlank s = false := by
  cases hlast : s.toList.getLast? with
  | none => rw [endsBlank, hlast, Option.any_none]
  | some c => rw [endsBlank, hlast, Option.any_some, h c (List.mem_of_mem_getLast? hlast)]

end Text

namespace Signature

theorem toList_join (owner method : String) :
    (join owner method).toList = owner.toList ++ '.' :: method.toList := by
  simp [join]

@[simp] theorem startsBlank_join (owner method : String) :
    Text.startsBlank (join owner method) = Text.startsBlank owner := by
  rw [Text.startsBlank, toList_join, Text.startsBlank]
  cases owner.toList <;> rfl

@[simp] theorem endsBlank_join (owner method : String) :
    Text.endsBlank (join owner method) = Text.endsBlank method := by
  rw [Text.endsBlank, toList_join, List.getLast?_append, List.getLast?_cons, Text.endsBlank]
  cases method.toList.getLast? <;> rfl

theorem trim_join_iff {owner method : String} :
    Text.trim (join owner method) = join owner method ↔
      Text.startsBlank owner = false ∧ Text.endsBlank method = false := by
  rw [Text.trim_eq_self_iff, startsBlank_join, endsBlank_join]

theorem endsBlank_method {s : Signature} (h : Text.endsBlank s = false) :
    Text.endsBlank (Signature.method s) = false := by
  by_cases hdot : '.' ∈ s.toList
  · obtain ⟨owner, method, rfl, hmethod⟩ := exists_join hdot
    rwa [method_join owner hmethod, ← endsBlank_join owner]
  · rwa [Signature.method, Text.afterLastDot_of_not_mem hdot]

end Signature

end CallTrace
