import CallTrace.Proofs.Text.Trim
import CallTrace.Resolution

/-!
What is left of a raw call. Argument lists and blanks make no difference to it, wherever they stand.
The text that is left has none of them, nor a dot at either end; so a call that has a text names a
method, and one that finds no class stands for its text.
-/

namespace CallTrace

namespace CallText

def depthAfter (depth : Nat) (c : Char) : Nat :=
  if c = '(' then depth + 1 else if c = ')' then depth - 1 else depth

def Shown (c : Char) : Prop :=
  c ≠ '(' ∧ c ≠ ')' ∧ Text.isBlankChar c = false

instance (c : Char) : Decidable (Shown c) :=
  inferInstanceAs (Decidable (_ ∧ _))

theorem outsideParens_cons (depth : Nat) (c : Char) (rest : List Char) :
    outsideParens depth (c :: rest) =
      (if depth = 0 ∧ Shown c then [c] else []) ++ outsideParens (depthAfter depth c) rest := by
  -- Unfolded on one side only: the equations of `outsideParens` split every character literal.
  conv_lhs => unfold outsideParens
  split
  · contradiction
  · rename_i heq
    cases heq
    simp [Shown, depthAfter]
  · rename_i heq
    cases heq
    simp [Shown, depthAfter]
  · rename_i hopen hclose heq
    cases heq
    have hdepth : depthAfter 0 c = 0 := by rw [depthAfter, if_neg hopen, if_neg hclose]
    have hshown : Shown c ↔ Text.isBlankChar c = false :=
      ⟨fun h => h.2.2, fun h => ⟨hopen, hclose, h⟩⟩
    cases hblank : Text.isBlankChar c <;> simp [hshown, hdepth, hblank]
  · rename_i hopen hclose heq
    cases heq
    rw [depthAfter, if_neg hopen, if_neg hclose, if_neg (by simp), List.nil_append]

theorem outsideParens_open (depth : Nat) (rest : List Char) :
    outsideParens depth ('(' :: rest) = outsideParens (depth + 1) rest := by
  simp [outsideParens_cons, Shown, depthAfter]

theorem outsideParens_close (depth : Nat) (rest : List Char) :
    outsideParens (depth + 1) (')' :: rest) = outsideParens depth rest := by
  simp [outsideParens_cons, Shown, depthAfter]

theorem outsideParens_inside {c : Char} (hopen : c ≠ '(') (hclose : c ≠ ')') (depth : Nat)
    (rest : List Char) :
    outsideParens (depth + 1) (c :: rest) = outsideParens (depth + 1) rest := by
  simp [outsideParens_cons, depthAfter, hopen, hclose]

theorem outsideParens_blank {c : Char} (h : Text.isBlankChar c = true) (depth : Nat)
    (rest : List Char) : outsideParens depth (c :: rest) = outsideParens depth rest := by
  have hopen : c ≠ '(' := by
    rintro rfl
    exact absurd h (by decide)
  have hclose : c ≠ ')' := by
    rintro rfl
    exact absurd h (by decide)
  simp [outsideParens_cons, Shown, depthAfter, hopen, hclose, h]

/-- Texts in which every parenthesis has its partner. -/
inductive Balanced : List Char → Prop where
  | empty : Balanced []
  | plain {c : Char} {rest : List Char} (hopen : c ≠ '(') (hclose : c ≠ ')')
      (hrest : Balanced rest) : Balanced (c :: rest)
  | group {inner rest : List Char} (hinner : Balanced inner) (hrest : Balanced rest) :
      Balanced ('(' :: (inner ++ ')' :: rest))

theorem Balanced.outsideParens_append {cs : List Char} (h : Balanced cs) (depth : Nat)
    (rest : List Char) :
    outsideParens (depth + 1) (cs ++ rest) = outsideParens (depth + 1) rest := by
  induction h generalizing depth rest with
  | empty => rfl
  | plain hopen hclose _ ih => rw [List.cons_append, outsideParens_inside hopen hclose, ih]
  | group _ _ ihinner ihrest =>
      rw [List.cons_append, List.append_assoc, List.cons_append, outsideParens_open, ihinner,
        outsideParens_close, ihrest]

theorem Balanced.outsideParens_group {inner : List Char} (h : Balanced inner) (depth : Nat)
    (rest : List Char) :
    outsideParens depth ('(' :: (inner ++ ')' :: rest)) = outsideParens depth rest := by
  rw [outsideParens_open, h.outsideParens_append, outsideParens_close]

/-- What makes no difference at any depth makes none behind another text. -/
theorem outsideParens_append_congr {cs other : List Char}
    (h : ∀ depth, outsideParens depth cs = outsideParens depth other) (front : List Char)
    (depth : Nat) : outsideParens depth (front ++ cs) = outsideParens depth (front ++ other) := by
  induction front generalizing depth with
  | nil => exact h depth
  | cons c rest ih => rw [List.cons_append, List.cons_append, outsideParens_cons, ih,
      outsideParens_cons]

theorem parse_congr {raw other : String}
    (h : outsideParens 0 raw.toList = outsideParens 0 other.toList) : parse raw = parse other := by
  rw [parse, parse, parseChars, parseChars, h]

theorem parse_group (before after : String) {arguments : String}
    (h : Balanced arguments.toList) :
    parse (before ++ "(" ++ arguments ++ ")" ++ after) = parse (before ++ after) := by
  apply parse_congr
  have hcut := outsideParens_append_congr (fun depth => h.outsideParens_group depth after.toList)
    before.toList 0
  simpa using hcut

theorem parse_blank (before after : String) {c : Char} (h : Text.isBlankChar c = true) :
    parse (before ++ c.toString ++ after) = parse (before ++ after) := by
  apply parse_congr
  have hcut := outsideParens_append_congr (fun depth => outsideParens_blank h depth after.toList)
    before.toList 0
  simpa using hcut

/-- The form of what is left of a call. -/
structure Bare (text : String) : Prop where
  shown : ∀ c ∈ text.toList, Shown c
  head?_ne : text.toList.head? ≠ some '.'
  getLast?_ne : text.toList.getLast? ≠ some '.'

instance (text : String) : Decidable (Bare text) :=
  decidable_of_iff (text.toList.all (fun c => decide (Shown c)) = true ∧
      text.toList.head? ≠ some '.' ∧ text.toList.getLast? ≠ some '.')
    ⟨fun ⟨hshown, hhead, hlast⟩ =>
        ⟨fun c hc => of_decide_eq_true (List.all_eq_true.mp hshown c hc), hhead, hlast⟩,
      fun h => ⟨List.all_eq_true.mpr fun c hc => decide_eq_true (h.shown c hc), h.head?_ne,
        h.getLast?_ne⟩⟩

theorem shown_of_mem_outsideParens {depth : Nat} {cs : List Char} {c : Char}
    (h : c ∈ outsideParens depth cs) : Shown c := by
  induction cs generalizing depth with
  | nil => exact absurd h List.not_mem_nil
  | cons first rest ih =>
      rw [outsideParens_cons, List.mem_append] at h
      rcases h with hfirst | hrest
      · split at hfirst
        · rename_i hshown
          rw [List.mem_singleton.mp hfirst]
          exact hshown.2
        · exact absurd hfirst List.not_mem_nil
      · exact ih hrest

theorem outsideParens_of_shown {cs : List Char} (h : ∀ c ∈ cs, Shown c) :
    outsideParens 0 cs = cs := by
  induction cs with
  | nil => rfl
  | cons c rest ih =>
      obtain ⟨hc, hrest⟩ := List.forall_mem_cons.mp h
      have hdepth : depthAfter 0 c = 0 := by simp [depthAfter, hc.1, hc.2.1]
      rw [outsideParens_cons, if_pos ⟨rfl, hc⟩, hdepth, ih hrest, List.singleton_append]

theorem mem_of_mem_stripThis {cs : List Char} {c : Char} (h : c ∈ (stripThis cs).1) :
    c ∈ cs := by
  unfold stripThis at h
  split at h
  · simp only [List.mem_cons]
    exact .inr (.inr (.inr (.inr (.inr h))))
  · exact h

theorem bare_parse (raw : String) : Bare (parse raw).text := by
  have hchars : (parse raw).text.toList =
      Text.dropBothWhile (· == '.') (stripThis (outsideParens 0 raw.toList)).1 := by
    rw [parse, String.toList_ofList, parseChars]
  constructor
  · intro c hc
    rw [hchars] at hc
    exact shown_of_mem_outsideParens (mem_of_mem_stripThis (Text.mem_of_mem_dropBothWhile hc))
  · intro hdot
    rw [hchars] at hdot
    exact absurd (Text.head?_dropBothWhile hdot) (by decide)
  · intro hdot
    rw [hchars] at hdot
    exact absurd (Text.getLast?_dropBothWhile hdot) (by decide)

theorem not_isBlankChar_of_mem_parse {raw : String} {c : Char}
    (h : c ∈ (parse raw).text.toList) : Text.isBlankChar c = false :=
  ((bare_parse raw).shown c h).2.2

namespace Bare

variable {text : String} (h : Bare text)

include h

theorem dropBothWhile_eq : Text.dropBothWhile (· == '.') text.toList = text.toList := by
  rw [Text.dropBothWhile_eq_self_iff]
  constructor
  · cases hhead : text.toList.head? with
    | none => rfl
    | some c => simpa [hhead] using h.head?_ne
  · cases hlast : text.toList.getLast? with
    | none => rfl
    | some c => simpa [hlast] using h.getLast?_ne

theorem parse_eq (hthis : ¬"this.".toList <+: text.toList) : parse text = ⟨text, false⟩ := by
  have hstrip : stripThis text.toList = (text.toList, false) := by
    unfold stripThis
    split
    · rename_i rest heq
      exact absurd ⟨rest, heq.symm⟩ hthis
    · rfl
  rw [parse, parseChars, outsideParens_of_shown h.shown, hstrip, h.dropBothWhile_eq,
    String.ofList_toList]

theorem parse_onThis : parse ("this." ++ text) = ⟨text, true⟩ := by
  have hshown : ∀ c ∈ ("this." ++ text).toList, Shown c := by
    intro c hc
    rw [String.toList_append, List.mem_append] at hc
    rcases hc with hthis | htext
    · have hall : "this.".toList.all (fun c => decide (Shown c)) = true := by decide
      exact of_decide_eq_true (List.all_eq_true.mp hall c hthis)
    · exact h.shown c htext
  have hstrip : stripThis ("this." ++ text).toList = (text.toList, true) := by
    rw [String.toList_append]
    rfl
  rw [parse, parseChars, outsideParens_of_shown hshown, hstrip, h.dropBothWhile_eq,
    String.ofList_toList]

/-- A call on a receiver names both the receiver and the method. -/
theorem ne_empty_of_eq_join {name method : String} (heq : text = Signature.join name method) :
    name ≠ "" ∧ method ≠ "" := by
  constructor
  · rintro rfl
    exact h.head?_ne (by simp [heq, Signature.join])
  · rintro rfl
    exact h.getLast?_ne (by simp [heq, Signature.join])

theorem method_ne_empty (hne : text ≠ "") : Signature.method text ≠ "" := by
  by_cases hdot : '.' ∈ text.toList
  · obtain ⟨name, method, heq, hmethod⟩ := Signature.exists_join hdot
    rw [heq, Signature.method_join name hmethod]
    exact (h.ne_empty_of_eq_join heq).2
  · rwa [Signature.method, Text.afterLastDot_of_not_mem hdot]

end Bare

end CallText

namespace Codebase

theorem resolve_eq_of_parse_eq {raw other : String}
    (h : CallText.parse raw = CallText.parse other) (code : Codebase) (scope : Scope) :
    code.resolve scope raw = code.resolve scope other := by
  rw [resolve, resolve, h]

theorem resolve_eq_none_iff (code : Codebase) (scope : Scope) (raw : String) :
    code.resolve scope raw = none ↔ (CallText.parse raw).text = "" := by
  constructor
  · intro h
    by_contra hne
    unfold resolve at h
    dsimp only at h
    rw [if_neg (by simpa using hne)] at h
    split at h
    · cases h
    · split at h
      · cases h
      · split at h <;> cases h
  · intro h
    simp [resolve, h]

/-- A call that finds no class is meant by its text. -/
theorem resolve_eq_heuristic {code : Codebase} {scope : Scope} {raw expression : String}
    (h : code.resolve scope raw = some (.heuristic expression)) :
    expression = (CallText.parse raw).text := by
  unfold resolve at h
  dsimp only at h
  split at h
  · cases h
  · split at h
    · exact (Resolution.heuristic.inj (Option.some.inj h)).symm
    · split at h
      · cases h
      · rename_i hname
        split at h
        · cases h
        rw [← Resolution.heuristic.inj (Option.some.inj h)]
        have hdot : '.' ∈ (CallText.parse raw).text.toList := by
          by_contra hplain
          exact hname (by rw [Signature.qualifier_of_not_mem hplain, beq_self_eq_true])
        obtain ⟨owner, method, htext, hmethod⟩ := Signature.exists_join hdot
        rw [htext, Signature.qualifier_join owner hmethod, Signature.method_join owner hmethod]

/-- Argument lists and blanks make no difference to a call, wherever they stand. What is left of it
is bare, every bare text is left of some call, and a call means nothing only if nothing is left. -/
theorem calls_read_by_bare_text :
    (∀ before arguments after : String, CallText.Balanced arguments.toList →
      CallText.parse (before ++ "(" ++ arguments ++ ")" ++ after) =
          CallText.parse (before ++ after) ∧
        ∀ (code : Codebase) (scope : Scope),
          code.resolve scope (before ++ "(" ++ arguments ++ ")" ++ after) =
            code.resolve scope (before ++ after)) ∧
    (∀ (before after : String) (blank : Char), Text.isBlankChar blank = true →
      CallText.parse (before ++ blank.toString ++ after) = CallText.parse (before ++ after) ∧
        ∀ (code : Codebase) (scope : Scope),
          code.resolve scope (before ++ blank.toString ++ after) =
            code.resolve scope (before ++ after)) ∧
    (∀ raw : String, CallText.Bare (CallText.parse raw).text ∧
      ((CallText.parse raw).text ≠ "" → Signature.method (CallText.parse raw).text ≠ "") ∧
      ∀ (code : Codebase) (scope : Scope),
        (code.resolve scope raw = none ↔ (CallText.parse raw).text = "") ∧
        ∀ expression, code.resolve scope raw = some (.heuristic expression) →
          (Resolution.heuristic expression).signature = (CallText.parse raw).text) ∧
    (∀ text : String, CallText.Bare text →
      CallText.parse ("this." ++ text) = ⟨text, true⟩ ∧
      (¬"this.".toList <+: text.toList → CallText.parse text = ⟨text, false⟩)) := by
  refine ⟨?_, ?_, ?_, ?_⟩
  · intro before arguments after h
    have hparse := CallText.parse_group before after h
    exact ⟨hparse, resolve_eq_of_parse_eq hparse⟩
  · intro before after blank h
    have hparse := CallText.parse_blank before after h
    exact ⟨hparse, resolve_eq_of_parse_eq hparse⟩
  · intro raw
    have hbare := CallText.bare_parse raw
    refine ⟨hbare, hbare.method_ne_empty, ?_⟩
    intro code scope
    exact ⟨code.resolve_eq_none_iff scope raw, fun _ h => resolve_eq_heuristic h⟩
  · intro text h
    exact ⟨h.parse_onThis, h.parse_eq⟩

/-- A stray closer, arguments that are calls themselves and a blank before the dot of `this`. -/
theorem calls_read_by_bare_text_stray :
    CallText.Balanced "x, y(z)".toList ∧ Text.isBlankChar ' ' = true ∧
      CallText.parse ")this .repo.(" = CallText.parse ")this.repo.(" ∧
      CallText.parse ")th(x, y(z))is.repo.find(" = CallText.parse ")this.repo.find(" ∧
      CallText.parse ("this." ++ "repo.find") = ⟨"repo.find", true⟩ := by
  obtain ⟨hgroup, hblank, -, hbare⟩ := calls_read_by_bare_text
  have harguments : CallText.Balanced "x, y(z)".toList := by
    have hinner : CallText.Balanced ['z'] := .plain (by decide) (by decide) .empty
    exact .plain (by decide) (by decide) (.plain (by decide) (by decide) (.plain (by decide)
      (by decide) (.plain (by decide) (by decide) (.group hinner .empty))))
  have htext : CallText.Bare "repo.find" := by decide
  exact ⟨harguments, rfl, (hblank ")this" ".repo.(" ' ' rfl).1,
    (hgroup ")th" "x, y(z)" "is.repo.find(" harguments).1, (hbare "repo.find" htext).1⟩

end Codebase

end CallTrace
