import CallTrace.Proofs.Hierarchy.Content
import CallTrace.Proofs.Resolution.Lookup
import CallTrace.Proofs.TypeName.Declaration

/-!
Reading a type name again. Scopes and hierarchies keep the bare name of a declared type, and the
class of a receiver is looked for by the bare name of what its scope keeps. The two names are one
unless the marks of the type are interrupted, by blanks between them or by array marks behind
variable-arity marks.
-/

namespace CallTrace

namespace TypeName

open Text

def IsMark (mark : List Char) : Prop :=
  mark = brackets ∨ mark = ellipsis

theorem IsMark.unbroken {mark : List Char} (h : IsMark mark) : Unbroken mark := by
  rcases h with rfl | rfl
  · exact unbroken_brackets
  · exact unbroken_ellipsis

theorem IsMark.ne_nil {mark : List Char} (h : IsMark mark) : mark ≠ [] := by
  rcases h with rfl | rfl <;> decide

/-- The word in front of the last run of marks ends in a mark itself: blanks separate the two, or it
is a variable-arity mark right in front of array marks. -/
def Interrupted (text : List Char) : Prop :=
  ∃ stem mark gap after dims arity,
    text = stem ++ mark ++ gap ++ copies dims brackets ++ copies arity ellipsis ++ after ∧
    IsMark mark ∧ Blank gap ∧ Blank after ∧
    0 < dims + arity ∧ (gap = [] → mark = ellipsis ∧ 0 < dims)

def EndsMarked (cs : List Char) : Prop :=
  ∃ mark, IsMark mark ∧ mark <:+ cs

def wordParts {word : List Char} (hword : Unbroken word) (hbare : ¬EndsMarked word) : Parts where
  front := []
  name := word
  gap := []
  dims := 0
  arity := 0
  after := []
  breaksOff := by simp [BreaksOff]
  unbroken := hword
  blank_gap := by simp [Blank]
  blank_after := by simp [Blank]
  no_gap _ _ := rfl
  no_brackets _ := fun hends => hbare ⟨brackets, .inl rfl, hends⟩
  no_ellipsis _ _ := fun hends => hbare ⟨ellipsis, .inr rfl, hends⟩

theorem nameChars_eq_self_iff {word : List Char} (hword : Unbroken word) :
    nameChars word = word ↔ ¬EndsMarked word := by
  constructor
  · intro hself
    obtain ⟨p, htext, hname⟩ := Parts.exists_parts word
    have hlength : p.text.length = p.name.length := by rw [htext, hname, hself]
    simp only [Parts.text, Parts.core, List.length_append] at hlength
    have hgap : p.gap = [] := List.eq_nil_of_length_eq_zero (by omega)
    have hdims : copies p.dims brackets = [] := List.eq_nil_of_length_eq_zero (by omega)
    rw [copies_eq_nil_iff (by decide)] at hdims
    rw [← hself, ← hname]
    rintro ⟨mark, rfl | rfl, hends⟩
    · exact p.no_brackets hgap hends
    · exact p.no_ellipsis hgap hdims hends
  · intro hbare
    by_cases hne : word = []
    · subst hne
      rfl
    · have hname := (wordParts hword hbare).nameChars_text hne
      simpa [wordParts, Parts.text, Parts.core, copies_zero] using hname

/-- What is read off a text ends in a mark just if its marks are interrupted. -/
theorem endsMarked_nameChars_iff {text : List Char} :
    EndsMarked (nameChars text) ↔ Interrupted text := by
  constructor
  · intro hends
    obtain ⟨p, rfl, hname⟩ := Parts.exists_parts text
    rw [← hname] at hends
    obtain ⟨mark, hmark, stem, hstem⟩ := hends
    have hdirect : p.gap = [] → mark = ellipsis ∧ 0 < p.dims := by
      intro hgap
      have hellipsis : mark = ellipsis := by
        refine hmark.resolve_left ?_
        rintro rfl
        exact p.no_brackets hgap ⟨stem, hstem⟩
      subst hellipsis
      exact ⟨rfl, Nat.pos_of_ne_zero fun hdims => p.no_ellipsis hgap hdims ⟨stem, hstem⟩⟩
    refine ⟨p.front ++ stem, mark, p.gap, p.after, p.dims, p.arity, ?_, hmark, p.blank_gap,
      p.blank_after, ?_, hdirect⟩
    · simp [Parts.text, Parts.core, ← hstem]
    · by_contra hnone
      have hdims := (hdirect (p.no_gap (by omega) (by omega))).2
      omega
  · rintro ⟨stem, mark, gap, after, dims, arity, rfl, hmark, hgap, hafter, hsome, hdirect⟩
    obtain ⟨front, rest, hsplit, hfront, hrest⟩ := exists_eq_lastWord (stem ++ mark)
    have hends : mark <:+ front ++ lastWord (stem ++ mark) ++ rest :=
      hsplit ▸ List.suffix_append stem mark
    obtain ⟨rfl, hword⟩ := (suffix_word_iff hmark.unbroken hmark.ne_nil hfront hrest).mp hends
    rw [List.append_nil] at hsplit
    let p : Parts :=
      { front, name := lastWord (stem ++ mark), gap, dims, arity, after
        breaksOff := hfront
        unbroken := unbroken_lastWord _
        blank_gap := hgap
        blank_after := hafter
        no_gap := fun _ _ => by omega
        no_brackets := fun hnone => not_brackets_suffix ((hdirect hnone).1 ▸ hword)
        no_ellipsis := fun hnone _ => absurd (hdirect hnone).2 (by omega) }
    have htext : p.text =
        stem ++ mark ++ gap ++ copies dims brackets ++ copies arity ellipsis ++ after := by
      rw [hsplit]
      simp [p, Parts.text, Parts.core]
    have hname := p.nameChars_text (hword.ne_nil hmark.ne_nil)
    rw [htext] at hname
    exact ⟨mark, hmark, hname ▸ hword⟩

theorem unbroken_baseChars (declared : List Char) : Unbroken (baseChars declared) := by
  rw [baseChars_eq]
  exact unbroken_lastWord _

theorem mem_of_mem_nameChars {text : List Char} {c : Char} (h : c ∈ nameChars text) : c ∈ text := by
  obtain ⟨p, rfl, hname⟩ := Parts.exists_parts text
  rw [← hname] at h
  simp [Parts.text, Parts.core, h]

theorem plain_baseChars (declared : List Char) : '<' ∉ baseChars declared := by
  rw [baseChars_eq]
  intro hmem
  simpa using List.mem_takeWhile_imp (mem_of_mem_nameChars hmem)

/-- The bare name of a bare name is that name again, unless the marks were interrupted. -/
theorem base_base_iff {declared : String} :
    base (base declared) = base declared ↔
      ¬Interrupted (declared.toList.takeWhile (· != '<')) := by
  rw [base, base, String.toList_ofList, String.ofList_inj, baseChars_eq (baseChars _),
    takeWhile_of_plain (plain_baseChars _), nameChars_eq_self_iff (unbroken_baseChars _),
    baseChars_eq, endsMarked_nameChars_iff]

end TypeName

open Hierarchy

/-- Wherever a type is declared so, it goes by one name: scopes keep it for variables and fields,
hierarchies note classes under it, and receivers of the type mean the class that it finds, or else
the name. -/
structure KnownBy (declared name : String) : Prop where
  of_variable : ∀ (code : Codebase) (enclosing : String) (m : MethodDecl),
    ∀ b ∈ m.parameters ++ m.locals, b.declaredType = declared → b.name ≠ "" → name ≠ "" →
      (b.name, name) ∈ (code.scope enclosing m).locals
  of_field : ∀ (code : Codebase) (enclosing : String) (m : MethodDecl),
    ∀ c ∈ code.findSimple? enclosing, ∀ b ∈ c.fields, b.declaredType = declared → b.name ≠ "" →
      name ≠ "" → (b.name, name) ∈ (code.scope enclosing m).fields
  of_interface : ∀ (code : Codebase), ∀ c ∈ code.classes, c.name ≠ "" → c.isInterface = false →
    declared ∈ c.interfaces → name ≠ "" → c.name ∈ (ofCodebase code).declaring name
  of_receiver : ∀ code : Codebase, code.canonicalClass name = (code.foundName? name).getD name

theorem Binding.typed?_of_declaredType {b : Binding} {declared : String}
    (hdeclared : b.declaredType = declared) (hname : b.name ≠ "")
    (htype : TypeName.base declared ≠ "") :
    b.typed? = some (b.name, TypeName.base declared) := by
  simp [typed?, hdeclared, hname, htype]

theorem knownBy_base_iff {declared : String} :
    KnownBy declared (TypeName.base declared) ↔
      TypeName.base (TypeName.base declared) = TypeName.base declared := by
  constructor
  · intro hknown
    exact hknown.of_receiver {}
  · intro hbase
    refine ⟨?_, ?_, ?_, ?_⟩
    · intro code enclosing m b hb hdeclared hname htype
      exact List.mem_filterMap.mpr ⟨b, hb, Binding.typed?_of_declaredType hdeclared hname htype⟩
    · intro code enclosing m c hc b hb hdeclared hname htype
      have hfields : (code.scope enclosing m).fields = c.fields.filterMap Binding.typed? := by
        simp only [Codebase.scope, Codebase.fieldsOf, Option.mem_def.mp hc]
      rw [hfields]
      exact List.mem_filterMap.mpr ⟨b, hb, Binding.typed?_of_declaredType hdeclared hname htype⟩
    · intro code c hc hname hclass hlisted htype
      exact mem_declaring.mpr ⟨c, hc, ⟨hname, hclass, htype, declared, hlisted, rfl⟩, rfl⟩
    · intro code
      rw [Codebase.canonicalClass_eq_getD, hbase]

/-- A declared type settles on one name when it is read once, and goes by that name everywhere, just
if its marks are not interrupted. -/
theorem declared_type_settles (declared : String) :
    (TypeName.base (TypeName.base declared) = TypeName.base declared ↔
      ¬TypeName.Interrupted (declared.toList.takeWhile (· != '<'))) ∧
    (KnownBy declared (TypeName.base declared) ↔
      ¬TypeName.Interrupted (declared.toList.takeWhile (· != '<'))) :=
  ⟨TypeName.base_base_iff, knownBy_base_iff.trans TypeName.base_base_iff⟩

def copyCells : MethodDecl where
  name := "copy"
  calls := ["cells.clone()"]

def boardOfCells : Codebase where
  classes := [{ name := "Board", fields := [⟨"cells", "Cell [] []"⟩], methods := [copyCells] }]

theorem array_type_unsettled :
    TypeName.base "Cell [] []" = "[]" ∧ TypeName.base (TypeName.base "Cell [] []") = "" ∧
      (boardOfCells.scope "Board" copyCells).field? "cells" = some "[]" ∧
      boardOfCells.resolve (boardOfCells.scope "Board" copyCells) "cells.clone()" =
        some (.resolved "" "clone") ∧
      TypeName.base "Cell[] ..." = "Cell[]" ∧ TypeName.base "Cell[]" = "Cell" := by
  decide +kernel

end CallTrace
