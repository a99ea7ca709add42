import CallTrace.Classifier.AnnotationUse
import CallTrace.Proofs.Text.Words

/-!
The grammar of annotations. An annotation is a dotted name behind an at sign, alone or with any text
in parentheses behind it, with blanks in between; it is read in one way only. Reading accepts
exactly this.
-/

namespace CallTrace.AnnotationUse

open Text

/-- The characters of names are letters of some script, digits, connectors and dots. -/
def IsName (name : String) : Prop :=
  name ≠ "" ∧ ∀ c ∈ name.toList, isNameChar c = true

instance (name : String) : Decidable (IsName name) :=
  decidable_of_iff (name ≠ "" ∧ name.toList.all isNameChar = true)
    (and_congr_right' List.all_eq_true)

/-- The text is an annotation with this name and, if it has parentheses, this text in them. -/
inductive Written : String → String → Option String → Prop where
  | bare {before name gap after : String} (hbefore : isBlank before = true) (hname : IsName name)
      (hgap : isBlank gap = true) (hafter : isBlank after = true) :
      Written (before ++ "@" ++ name ++ gap ++ after) name none
  | enclosing {before name gap arguments after : String} (hbefore : isBlank before = true)
      (hname : IsName name) (hgap : isBlank gap = true) (hafter : isBlank after = true) :
      Written (before ++ "@" ++ name ++ gap ++ "(" ++ arguments ++ ")" ++ after) name
        (some arguments)

def blankRanges : List (Nat × Nat) :=
  [(0x09, 0x0D), (0x20, 0x20), (0x85, 0x85), (0xA0, 0xA0), (0x1680, 0x1680), (0x2000, 0x200A),
   (0x2028, 0x2029), (0x202F, 0x202F), (0x205F, 0x205F), (0x3000, 0x3000)]

theorem exists_mem_blankRanges {c : Char} (h : isBlankChar c = true) :
    ∃ blank ∈ blankRanges, blank.1 ≤ c.toNat ∧ c.toNat ≤ blank.2 := by
  simp only [isBlankChar, Bool.or_eq_true, Bool.and_eq_true, decide_eq_true_eq, beq_iff_eq] at h
  simp only [blankRanges, List.exists_mem_cons_iff, List.not_mem_nil, false_and, exists_false,
    or_false]
  omega

theorem wordRanges_apart :
    ∀ blank ∈ blankRanges,
      (wordRanges.all fun word => decide (word.2 < blank.1) || decide (blank.2 < word.1)) = true := by
  decide +kernel

theorem not_isNameChar_of_isBlankChar {c : Char} (hblank : isBlankChar c = true) :
    isNameChar c = false := by
  by_contra h
  rw [Bool.not_eq_false, isNameChar, Bool.or_eq_true, beq_iff_eq] at h
  rcases h with hword | rfl
  · rw [isWordChar, List.any_eq_true] at hword
    obtain ⟨word, hword, hin⟩ := hword
    obtain ⟨blank, hblank, hlow, hhigh⟩ := exists_mem_blankRanges hblank
    simp only [Bool.and_eq_true, decide_eq_true_eq] at hin
    have hapart := List.all_eq_true.mp (wordRanges_apart blank hblank) word hword
    simp only [Bool.or_eq_true, decide_eq_true_eq] at hapart
    omega
  · exact absurd hblank (by decide)

theorem isNameChar_open : isNameChar '(' = false := by
  decide +kernel

theorem head?_of_blank {rest : List Char} (h : Blank rest) : rest.head?.any isNameChar = false := by
  cases hhead : rest.head? with
  | none => rfl
  | some c => exact not_isNameChar_of_isBlankChar (h c (List.mem_of_mem_head? hhead))

theorem enclosed?_eq_some_iff {cs arguments : List Char} :
    enclosed? cs = some arguments ↔
      ∃ after, Blank after ∧ cs = '(' :: (arguments ++ ')' :: after) := by
  constructor
  · intro h
    unfold enclosed? at h
    split at h
    · rename_i rest
      split at h
      · rename_i inner hclosed
        obtain rfl := Option.some.inj h
        refine ⟨(rest.reverse.takeWhile isBlankChar).reverse, ?_, ?_⟩
        · intro c hc
          exact List.mem_takeWhile_imp (List.mem_reverse.mp hc)
        · have hsplit : rest.reverse = rest.reverse.takeWhile isBlankChar ++ ')' :: inner := by
            rw [← hclosed, List.takeWhile_append_dropWhile]
          have hrest := congrArg List.reverse hsplit
          simpa using hrest
      · cases h
    · cases h
  · rintro ⟨after, hafter, rfl⟩
    have hreverse : (arguments ++ ')' :: after).reverse =
        after.reverse ++ ')' :: arguments.reverse := by simp
    have hblank : ∀ c ∈ after.reverse, isBlankChar c = true :=
      fun c hc => hafter c (List.mem_reverse.mp hc)
    have hclosed : (arguments ++ ')' :: after).reverse.dropWhile isBlankChar =
        ')' :: arguments.reverse := by
      rw [hreverse, List.dropWhile_append_of_pos hblank,
        List.dropWhile_cons_of_neg (by decide)]
    simp only [enclosed?, hclosed, List.reverse_reverse]

theorem parseChars?_append {before name rest : List Char} (hbefore : Blank before)
    (hne : name ≠ []) (hname : ∀ c ∈ name, isNameChar c = true)
    (hrest : rest.head?.any isNameChar = false) :
    parseChars? (before ++ '@' :: (name ++ rest)) =
      if rest.dropWhile isBlankChar = [] then some (name, [])
      else (enclosed? (rest.dropWhile isBlankChar)).map fun arguments => (name, arguments) := by
  have hat : (before ++ '@' :: (name ++ rest)).dropWhile isBlankChar = '@' :: (name ++ rest) := by
    rw [List.dropWhile_append_of_pos hbefore, List.dropWhile_cons_of_neg (by decide)]
  have hstop : rest.takeWhile isNameChar = [] ∧ rest.dropWhile isNameChar = rest := by
    cases rest with
    | nil => exact ⟨rfl, rfl⟩
    | cons c rest =>
        have hc : isNameChar c = false := hrest
        simp [hc]
  simp only [parseChars?, hat, List.takeWhile_append_of_pos hname, hstop,
    List.dropWhile_append_of_pos hname, List.append_nil, List.isEmpty_iff, hne, if_false]

theorem parseChars?_bare {before name rest : List Char} (hbefore : Blank before)
    (hne : name ≠ []) (hname : ∀ c ∈ name, isNameChar c = true) (hrest : Blank rest) :
    parseChars? (before ++ '@' :: (name ++ rest)) = some (name, []) := by
  rw [parseChars?_append hbefore hne hname (head?_of_blank hrest), hrest.dropWhile, if_pos rfl]

theorem parseChars?_enclosing {before name gap after : List Char} (hbefore : Blank before)
    (hne : name ≠ []) (hname : ∀ c ∈ name, isNameChar c = true) (hgap : Blank gap)
    (arguments : List Char) (hafter : Blank after) :
    parseChars? (before ++ '@' :: (name ++ (gap ++ '(' :: (arguments ++ ')' :: after)))) =
      some (name, arguments) := by
  have hrest : (gap ++ '(' :: (arguments ++ ')' :: after)).head?.any isNameChar = false := by
    rw [List.head?_append]
    cases hhead : gap.head? with
    | none => rw [Option.none_or, List.head?_cons, Option.any_some, isNameChar_open]
    | some c => exact not_isNameChar_of_isBlankChar (hgap c (List.mem_of_mem_head? hhead))
  have hopen : (gap ++ '(' :: (arguments ++ ')' :: after)).dropWhile isBlankChar =
      '(' :: (arguments ++ ')' :: after) := by
    rw [List.dropWhile_append_of_pos hgap, List.dropWhile_cons_of_neg (by decide)]
  rw [parseChars?_append hbefore hne hname hrest, hopen, if_neg (List.cons_ne_nil _ _),
    enclosed?_eq_some_iff.mpr ⟨after, hafter, rfl⟩, Option.map_some]

/-- The ways in which a text can be read. -/
theorem exists_of_parseChars? {raw name arguments : List Char}
    (h : parseChars? raw = some (name, arguments)) :
    ∃ before rest, raw = before ++ '@' :: (name ++ rest) ∧ Blank before ∧ name ≠ [] ∧
      (∀ c ∈ name, isNameChar c = true) ∧
      (Blank rest ∧ arguments = [] ∨
        ∃ gap after, Blank gap ∧ Blank after ∧ rest = gap ++ '(' :: (arguments ++ ')' :: after)) := by
  unfold parseChars? at h
  split at h
  · rename_i cs hat
    dsimp only at h
    split at h
    · cases h
    · rename_i hname
      have htext : raw = raw.takeWhile isBlankChar ++
          '@' :: (cs.takeWhile isNameChar ++ cs.dropWhile isNameChar) := by
        rw [List.takeWhile_append_dropWhile, ← hat, List.takeWhile_append_dropWhile]
      have hbefore : Blank (raw.takeWhile isBlankChar) := fun c hc => List.mem_takeWhile_imp hc
      have hchars : ∀ c ∈ cs.takeWhile isNameChar, isNameChar c = true :=
        fun c hc => List.mem_takeWhile_imp hc
      rw [List.isEmpty_iff] at hname
      split at h
      · rename_i hrest
        cases h
        refine ⟨_, _, htext, hbefore, hname, hchars, .inl ⟨?_, rfl⟩⟩
        exact List.dropWhile_eq_nil_iff.mp (List.isEmpty_iff.mp hrest)
      · obtain ⟨inner, hinner, hparts⟩ := Option.map_eq_some_iff.mp h
        cases hparts
        obtain ⟨after, hafter, hclosed⟩ := enclosed?_eq_some_iff.mp hinner
        refine ⟨_, _, htext, hbefore, hname, hchars,
          .inr ⟨(cs.dropWhile isNameChar).takeWhile isBlankChar, after,
            fun c hc => List.mem_takeWhile_imp hc, hafter, ?_⟩⟩
        rw [← hclosed, List.takeWhile_append_dropWhile]
  · cases h

theorem Written.parseChars? {raw name : String} {arguments : Option String}
    (h : Written raw name arguments) :
    parseChars? raw.toList = some (name.toList, (arguments.getD "").toList) := by
  cases h with
  | @bare before name gap after hbefore hname hgap hafter =>
      have hne : name.toList ≠ [] := by simpa using hname.1
      have hread := parseChars?_bare (isBlank_iff.mp hbefore) hne hname.2
        ((isBlank_iff.mp hgap).append (isBlank_iff.mp hafter))
      simpa using hread
  | @enclosing before name gap arguments after hbefore hname hgap hafter =>
      have hne : name.toList ≠ [] := by simpa using hname.1
      have hread := parseChars?_enclosing (isBlank_iff.mp hbefore) hne hname.2
        (isBlank_iff.mp hgap) arguments.toList (isBlank_iff.mp hafter)
      simpa using hread

theorem exists_written_of_parseChars? {raw : String} {name arguments : List Char}
    (h : AnnotationUse.parseChars? raw.toList = some (name, arguments)) :
    ∃ written, Written raw (String.ofList name) written ∧
      written.getD "" = String.ofList arguments := by
  obtain ⟨before, rest, hraw, hbefore, hne, hname, hrest⟩ := exists_of_parseChars? h
  have hstart : isBlank (String.ofList before) = true := by simpa [isBlank_iff] using hbefore
  have hnamed : IsName (String.ofList name) := ⟨by simpa using hne, by simpa using hname⟩
  rcases hrest with ⟨hrest, rfl⟩ | ⟨gap, after, hgap, hafter, rfl⟩
  · have hend : isBlank (String.ofList rest) = true := by simpa [isBlank_iff] using hrest
    obtain rfl : raw = String.ofList before ++ "@" ++ String.ofList name ++ "" ++ String.ofList rest := by
      rw [← String.toList_inj]
      simpa using hraw
    exact ⟨none, .bare hstart hnamed rfl hend, rfl⟩
  · have hmiddle : isBlank (String.ofList gap) = true := by simpa [isBlank_iff] using hgap
    have hend : isBlank (String.ofList after) = true := by simpa [isBlank_iff] using hafter
    obtain rfl : raw = String.ofList before ++ "@" ++ String.ofList name ++ String.ofList gap ++ "(" ++
        String.ofList arguments ++ ")" ++ String.ofList after := by
      rw [← String.toList_inj]
      simpa using hraw
    exact ⟨some (String.ofList arguments), .enclosing hstart hnamed hmiddle hend, rfl⟩

theorem not_open_mem_of_blank {s : String} (h : isBlank s = true) : '(' ∉ s.toList := by
  intro hmem
  exact absurd (isBlank_iff.mp h _ hmem) (by decide)

theorem IsName.not_open_mem {name : String} (h : IsName name) : '(' ∉ name.toList := by
  intro hmem
  have hopen := h.2 _ hmem
  rw [isNameChar_open] at hopen
  cases hopen

theorem Written.open_mem_iff {raw name : String} {arguments : Option String}
    (h : Written raw name arguments) : '(' ∈ raw.toList ↔ arguments.isSome = true := by
  cases h with
  | bare hbefore hname hgap hafter =>
      simp [not_open_mem_of_blank hbefore, hname.not_open_mem, not_open_mem_of_blank hgap,
        not_open_mem_of_blank hafter]
  | enclosing => simp

/-- An annotation is read in one way only. -/
theorem Written.unique {raw name other : String} {arguments others : Option String}
    (h : Written raw name arguments) (hother : Written raw other others) :
    name = other ∧ arguments = others := by
  have hread := h.parseChars?.symm.trans hother.parseChars?
  simp only [Option.some.injEq, Prod.mk.injEq, String.toList_inj] at hread
  obtain ⟨hname, harguments⟩ := hread
  refine ⟨hname, ?_⟩
  have hopen := h.open_mem_iff.symm.trans hother.open_mem_iff
  cases arguments <;> cases others <;> simp_all

theorem parse?_eq_some_iff {raw : String} {use : AnnotationUse} :
    parse? raw = some use ↔ ∃ name arguments, Written raw name arguments ∧
      LastSegment name use.name ∧ Trimmed (arguments.getD "") use.arguments := by
  constructor
  · intro h
    obtain ⟨⟨name, arguments⟩, hread, rfl⟩ := Option.map_eq_some_iff.mp h
    obtain ⟨written, hwritten, harguments⟩ := exists_written_of_parseChars? hread
    refine ⟨String.ofList name, written, hwritten, afterLastDot_eq_iff.mp rfl, ?_⟩
    rw [harguments]
    exact trimmed_trim _
  · rintro ⟨name, arguments, hwritten, hname, harguments⟩
    rw [parse?, hwritten.parseChars?, Option.map_some, String.ofList_toList, String.ofList_toList,
      afterLastDot_eq_iff.mpr hname, trim_eq_iff.mpr harguments]

theorem isSome_parse?_iff {raw : String} :
    (parse? raw).isSome = true ↔ ∃ name arguments, Written raw name arguments := by
  constructor
  · intro h
    obtain ⟨use, huse⟩ := Option.isSome_iff_exists.mp h
    obtain ⟨name, arguments, hwritten, -⟩ := parse?_eq_some_iff.mp huse
    exact ⟨name, arguments, hwritten⟩
  · rintro ⟨name, arguments, hwritten⟩
    rw [parse?, hwritten.parseChars?]
    rfl

/-- A text is read as an annotation just if it is one, and it is one in one way only: what is read
is the last segment of its name and its arguments without the blanks around them. -/
theorem parse?_reads_grammar (raw : String) :
    ((parse? raw).isSome = true ↔ ∃ name arguments, Written raw name arguments) ∧
    (∀ name arguments other others, Written raw name arguments → Written raw other others →
      name = other ∧ arguments = others) ∧
    (∀ use, parse? raw = some use ↔ ∃ name arguments, Written raw name arguments ∧
      LastSegment name use.name ∧ Trimmed (arguments.getD "") use.arguments) :=
  ⟨isSome_parse?_iff, fun _ _ _ _ => Written.unique, fun _ => parse?_eq_some_iff⟩

def spacedMapping : String :=
  " @web.GetMapping (\n path = \"/x(1)\" ) ) "

theorem parse?_reads_grammar_mapping :
    parse? spacedMapping = some ⟨"GetMapping", "path = \"/x(1)\" )"⟩ ∧
      ∀ name arguments, Written spacedMapping name arguments →
        "web.GetMapping" = name ∧ some "\n path = \"/x(1)\" ) " = arguments := by
  have hname : IsName "web.GetMapping" := by decide +kernel
  have hwritten : Written spacedMapping "web.GetMapping" (some "\n path = \"/x(1)\" ) ") :=
    @Written.enclosing " " "web.GetMapping" " " "\n path = \"/x(1)\" ) " " " rfl hname rfl rfl
  obtain ⟨-, hunique, hreads⟩ := parse?_reads_grammar spacedMapping
  refine ⟨(hreads _).mpr ⟨_, _, hwritten, ⟨by decide, .inr ⟨"web", rfl⟩⟩, ?_⟩,
    fun _ _ => hunique _ _ _ _ hwritten⟩
  exact ⟨⟨"\n ", " ", rfl, rfl, rfl⟩, by decide, by decide⟩

end CallTrace.AnnotationUse
