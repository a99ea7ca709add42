import CallTrace.Proofs.Text.Words
import CallTrace.TypeName

/-!
The name in a declared type. In front of it stand modifiers, behind it array marks and then
variable-arity marks, or type arguments. Every text before type arguments can be taken apart in this
way, and the bare name is then the word in front of the marks.
-/

namespace CallTrace.TypeName

open Text

def brackets : List Char := "[]".toList

def ellipsis : List Char := "...".toList

theorem unbroken_brackets : Unbroken brackets := by decide

theorem unbroken_ellipsis : Unbroken ellipsis := by decide

theorem not_brackets_suffix {cs : List Char} (h : ellipsis <:+ cs) : ¬brackets <:+ cs := by
  obtain ⟨front, rfl⟩ := h
  rintro ⟨other, heq⟩
  have hlast := congrArg List.getLast? heq
  simp [ellipsis, brackets] at hlast

def copies (n : Nat) (mark : List Char) : List Char :=
  (List.replicate n mark).flatten

theorem copies_zero (mark : List Char) : copies 0 mark = [] :=
  rfl

theorem copies_succ (n : Nat) (mark : List Char) : copies (n + 1) mark = copies n mark ++ mark := by
  rw [copies, List.replicate_succ', List.flatten_concat, ← copies]

theorem copies_eq_nil_iff {n : Nat} {mark : List Char} (hmark : mark ≠ []) :
    copies n mark = [] ↔ n = 0 := by
  cases n with
  | zero => simp [copies_zero]
  | succ n => simp [copies_succ, hmark]

theorem unbroken_copies {mark : List Char} (h : Unbroken mark) (n : Nat) :
    Unbroken (copies n mark) := by
  intro c hc
  obtain ⟨copy, hcopy, hmem⟩ := List.mem_flatten.mp hc
  rw [List.eq_of_mem_replicate hcopy] at hmem
  exact h c hmem

/-- What is left of a text when all copies of a mark are taken from its end. -/
structure Stem (mark text stem : List Char) : Prop where
  eq_append : ∃ n, text = stem ++ copies n mark
  bare : ¬mark <:+ stem

theorem Stem.unique {mark text stem other : List Char} (hstem : Stem mark text stem)
    (hother : Stem mark text other) : stem = other := by
  obtain ⟨⟨n, rfl⟩, hbare⟩ := hstem
  obtain ⟨⟨m, heq⟩, hbare'⟩ := hother
  induction n generalizing m with
  | zero =>
      cases m with
      | zero => simpa [copies_zero] using heq
      | succ m =>
          rw [copies_succ, ← List.append_assoc] at heq
          have hend : stem = other ++ copies m mark ++ mark := by simpa [copies_zero] using heq
          exact absurd (hend ▸ List.suffix_append _ mark) hbare
  | succ n ih =>
      cases m with
      | zero =>
          rw [copies_succ, ← List.append_assoc] at heq
          have hend : other = stem ++ copies n mark ++ mark := by simpa [copies_zero] using heq.symm
          exact absurd (hend ▸ List.suffix_append _ mark) hbare'
      | succ m =>
          rw [copies_succ, copies_succ, ← List.append_assoc, ← List.append_assoc] at heq
          exact ih m (List.append_cancel_right heq)

theorem Stem.of_bare {mark text : List Char} (hbare : ¬mark <:+ text) : Stem mark text text :=
  ⟨⟨0, (List.append_nil text).symm⟩, hbare⟩

theorem Stem.append {mark text stem : List Char} (h : Stem mark text stem) :
    Stem mark (text ++ mark) stem := by
  obtain ⟨⟨n, rfl⟩, hbare⟩ := h
  exact ⟨⟨n + 1, by rw [copies_succ, List.append_assoc]⟩, hbare⟩

def cutEllipses (text : List Char) : List Char :=
  (dropEllipses text.reverse).reverse

def cutBrackets (text : List Char) : List Char :=
  (dropBrackets text.reverse).reverse

theorem stem_dropEllipses (cs : List Char) :
    Stem ellipsis cs.reverse (dropEllipses cs).reverse := by
  fun_induction dropEllipses cs with
  | case1 rest ih =>
      have hmark : ('.' :: '.' :: '.' :: rest).reverse = rest.reverse ++ ellipsis := by
        simp [ellipsis]
      rw [hmark]
      exact ih.append
  | case2 rest hno =>
      refine .of_bare fun hends => ?_
      obtain ⟨after, heq⟩ := List.reverse_prefix.mpr hends
      exact hno after (by simpa [ellipsis] using heq.symm)

theorem stem_dropBrackets (cs : List Char) :
    Stem brackets cs.reverse (dropBrackets cs).reverse := by
  fun_induction dropBrackets cs with
  | case1 rest ih =>
      have hmark : (']' :: '[' :: rest).reverse = rest.reverse ++ brackets := by
        simp [brackets]
      rw [hmark]
      exact ih.append
  | case2 rest hno =>
      refine .of_bare fun hends => ?_
      obtain ⟨after, heq⟩ := List.reverse_prefix.mpr hends
      exact hno after (by simpa [brackets] using heq.symm)

theorem stem_cutEllipses (text : List Char) : Stem ellipsis text (cutEllipses text) := by
  simpa [cutEllipses] using stem_dropEllipses text.reverse

theorem stem_cutBrackets (text : List Char) : Stem brackets text (cutBrackets text) := by
  simpa [cutBrackets] using stem_dropBrackets text.reverse

theorem cutEllipses_append {stem : List Char} (n : Nat) (hbare : ¬ellipsis <:+ stem) :
    cutEllipses (stem ++ copies n ellipsis) = stem :=
  (stem_cutEllipses _).unique ⟨⟨n, rfl⟩, hbare⟩

theorem cutBrackets_append {stem : List Char} (n : Nat) (hbare : ¬brackets <:+ stem) :
    cutBrackets (stem ++ copies n brackets) = stem :=
  (stem_cutBrackets _).unique ⟨⟨n, rfl⟩, hbare⟩

def nameChars (text : List Char) : List Char :=
  lastWord (cutBrackets (cutEllipses (trimChars text)))

theorem baseChars_eq (declared : List Char) :
    baseChars declared = nameChars (declared.takeWhile (· != '<')) := by
  simp [baseChars, nameChars, cutBrackets, cutEllipses]

/-- The parts of a type before its type arguments. Marks that stand right behind the name belong to
the marks and not to the name. -/
structure Parts where
  front : List Char
  name : List Char
  gap : List Char
  dims : Nat
  arity : Nat
  after : List Char
  breaksOff : BreaksOff front
  unbroken : Unbroken name
  blank_gap : Blank gap
  blank_after : Blank after
  no_gap : dims = 0 → arity = 0 → gap = []
  no_brackets : gap = [] → ¬brackets <:+ name
  no_ellipsis : gap = [] → dims = 0 → ¬ellipsis <:+ name

namespace Parts

def core (p : Parts) : List Char :=
  p.name ++ p.gap ++ copies p.dims brackets ++ copies p.arity ellipsis

def text (p : Parts) : List Char :=
  p.front ++ p.core ++ p.after

variable (p : Parts)

theorem trimChars_core (hname : p.name ≠ []) : trimChars p.core = p.core := by
  obtain ⟨hhead, hlast⟩ := p.unbroken.trimmed
  have hmarks : Unbroken (copies p.dims brackets ++ copies p.arity ellipsis) :=
    (unbroken_copies unbroken_brackets _).append (unbroken_copies unbroken_ellipsis _)
  refine dropBothWhile_eq_self_iff.mpr ⟨?_, ?_⟩
  · rw [core, List.append_assoc, List.append_assoc, List.head?_append_of_ne_nil _ hname]
    exact hhead
  · rw [core, List.append_assoc]
    by_cases hnone : copies p.dims brackets ++ copies p.arity ellipsis = []
    · obtain ⟨hdims, harity⟩ := List.append_eq_nil_iff.mp hnone
      rw [copies_eq_nil_iff (by decide)] at hdims harity
      rw [hnone, p.no_gap hdims harity, List.append_nil, List.append_nil]
      exact hlast
    · rw [List.getLast?_append_of_ne_nil _ hnone]
      exact hmarks.trimmed.2

/-- The bare name of a text is the name among its parts. -/
theorem nameChars_text (hname : p.name ≠ []) : nameChars p.text = p.name := by
  have hcore : p.core ≠ [] := by simp [core, hname]
  have hfront := p.breaksOff.dropWhile isBlankChar
  have hends : ∀ {mark : List Char}, Unbroken mark → mark ≠ [] →
      (mark <:+ p.front.dropWhile isBlankChar ++ p.name ++ p.gap ↔ p.gap = [] ∧ mark <:+ p.name) :=
    fun hmark hne => suffix_word_iff hmark hne hfront p.blank_gap
  have hbrackets : ¬brackets <:+ p.front.dropWhile isBlankChar ++ p.name ++ p.gap := by
    intro hmark
    obtain ⟨hgap, hmark⟩ := (hends unbroken_brackets (by decide)).mp hmark
    exact p.no_brackets hgap hmark
  have hellipsis : ¬ellipsis <:+
      p.front.dropWhile isBlankChar ++ p.name ++ p.gap ++ copies p.dims brackets := by
    intro hmark
    cases hdims : p.dims with
    | zero =>
        rw [hdims, copies_zero, List.append_nil] at hmark
        obtain ⟨hgap, hmark⟩ := (hends unbroken_ellipsis (by decide)).mp hmark
        exact p.no_ellipsis hgap hdims hmark
    | succ n =>
        rw [hdims, copies_succ, ← List.append_assoc] at hmark
        exact not_brackets_suffix hmark (List.suffix_append _ brackets)
  rw [nameChars, text, trimChars_append (p.trimChars_core hname) hcore p.blank_after]
  simp only [core, ← List.append_assoc]
  rw [cutEllipses_append _ hellipsis, cutBrackets_append _ hbrackets,
    lastWord_append hfront p.unbroken hname p.blank_gap]

/-- Every text has such parts. -/
theorem exists_parts (text : List Char) : ∃ p : Parts, p.text = text ∧ p.name = nameChars text := by
  obtain ⟨before, after, htext, hbefore, hafter⟩ := exists_eq_trimChars text
  obtain ⟨⟨arity, harity⟩, hellipsis⟩ := stem_cutEllipses (trimChars text)
  obtain ⟨⟨dims, hdims⟩, hbrackets⟩ := stem_cutBrackets (cutEllipses (trimChars text))
  obtain ⟨front, gap, hstem, hfront, hgap⟩ :=
    exists_eq_lastWord (cutBrackets (cutEllipses (trimChars text)))
  rw [← nameChars] at hstem
  have hcut : cutEllipses (trimChars text) =
      front ++ nameChars text ++ gap ++ copies dims brackets :=
    hdims.trans (congrArg (· ++ copies dims brackets) hstem)
  have htrimmed : trimChars text =
      front ++ nameChars text ++ gap ++ copies dims brackets ++ copies arity ellipsis :=
    harity.trans (congrArg (· ++ copies arity ellipsis) hcut)
  have hends : ∀ {mark : List Char}, Unbroken mark → mark ≠ [] →
      (mark <:+ front ++ nameChars text ++ gap ↔ gap = [] ∧ mark <:+ nameChars text) :=
    fun hmark hne => suffix_word_iff hmark hne hfront hgap
  refine ⟨{ front := before ++ front, name := nameChars text, gap, dims, arity, after,
            breaksOff := hbefore.breaksOff.append hfront, unbroken := unbroken_lastWord _,
            blank_gap := hgap, blank_after := hafter, no_gap := ?_, no_brackets := ?_,
            no_ellipsis := ?_ }, ?_, rfl⟩
  · rintro rfl rfl
    by_contra hne
    have hlast : (trimChars text).getLast? = some (gap.getLast hne) := by
      rw [htrimmed]
      simp [copies_zero, hne, List.getLast?_eq_some_getLast]
    have hunbroken := getLast?_dropBothWhile hlast
    rw [hgap _ (List.getLast_mem hne)] at hunbroken
    cases hunbroken
  · intro hnone hmark
    rw [hstem] at hbrackets
    exact hbrackets ((hends unbroken_brackets (by decide)).mpr ⟨hnone, hmark⟩)
  · rintro hnone rfl hmark
    refine hellipsis ?_
    rw [hcut, copies_zero, List.append_nil]
    exact (hends unbroken_ellipsis (by decide)).mpr ⟨hnone, hmark⟩
  · have hsplit := congrArg (before ++ · ++ after) htrimmed
    simpa [Parts.text, core, ← htext] using hsplit.symm

end Parts

structure IsWord (word : String) : Prop where
  ne_empty : word ≠ ""
  unbroken : Unbroken word.toList
  plain : '<' ∉ word.toList

structure IsName (name : String) : Prop extends IsWord name where
  no_brackets : ¬brackets <:+ name.toList
  no_ellipsis : ¬ellipsis <:+ name.toList

inductive Modifiers : String → Prop where
  | none : Modifiers ""
  | add {word gap rest : String} (hword : IsWord word) (hgap : isBlank gap = true) (hne : gap ≠ "")
      (hrest : Modifiers rest) : Modifiers (word ++ gap ++ rest)

def repeated (n : Nat) (mark : String) : String :=
  String.join (List.replicate n mark)

theorem toList_repeated (n : Nat) (mark : String) :
    (repeated n mark).toList = copies n mark.toList := by
  rw [repeated, String.toList_join, List.flatMap_replicate, copies]

theorem not_mem_of_blank {s : String} (h : isBlank s = true) : '<' ∉ s.toList := by
  intro hmem
  exact absurd (isBlank_iff.mp h _ hmem) (by decide)

theorem Modifiers.plain {modifiers : String} (h : Modifiers modifiers) :
    '<' ∉ modifiers.toList := by
  induction h with
  | none => simp
  | add hword hgap _ _ ih => simp [hword.plain, not_mem_of_blank hgap, ih]

theorem Modifiers.breaksOff {modifiers : String} (h : Modifiers modifiers) :
    BreaksOff modifiers.toList := by
  induction h with
  | none => simp [BreaksOff]
  | @add word gap rest _ hgap hne _ ih =>
      have hgap' : gap.toList ≠ [] := by simpa using hne
      have hbreaks := (isBlank_iff.mp hgap).breaksOff_append hgap' word.toList
      simpa using hbreaks.append ih

theorem takeWhile_of_plain {cs : List Char} (h : '<' ∉ cs) : cs.takeWhile (· != '<') = cs := by
  rw [List.takeWhile_eq_self_iff]
  intro c hc
  simpa using ne_of_mem_of_not_mem hc h

theorem takeWhile_append_of_plain {cs : List Char} (h : '<' ∉ cs) (rest : List Char) :
    (cs ++ '<' :: rest).takeWhile (· != '<') = cs := by
  rw [List.takeWhile_append_of_pos (List.takeWhile_eq_self_iff.mp (takeWhile_of_plain h))]
  simp

section Declarations

variable {modifiers name before gap after : String}

def declarationParts (hmodifiers : Modifiers modifiers) (hname : IsName name)
    (hbefore : isBlank before = true) (hgap : isBlank gap = true) (hafter : isBlank after = true)
    (dims arity : Nat) (hdims : gap ≠ "" → 0 < dims) : Parts where
  front := before.toList ++ modifiers.toList
  name := name.toList
  gap := gap.toList
  dims := dims
  arity := arity
  after := after.toList
  breaksOff := (isBlank_iff.mp hbefore).breaksOff.append hmodifiers.breaksOff
  unbroken := hname.unbroken
  blank_gap := isBlank_iff.mp hgap
  blank_after := isBlank_iff.mp hafter
  no_gap := by
    rintro rfl -
    by_contra hne
    exact absurd (hdims (by simpa using hne)) (Nat.lt_irrefl 0)
  no_brackets _ := hname.no_brackets
  no_ellipsis _ _ := hname.no_ellipsis

theorem plain_declarationParts (hmodifiers : Modifiers modifiers) (hname : IsName name)
    (hbefore : isBlank before = true) (hgap : isBlank gap = true) (hafter : isBlank after = true)
    (dims arity : Nat) (hdims : gap ≠ "" → 0 < dims) :
    '<' ∉ (declarationParts hmodifiers hname hbefore hgap hafter dims arity hdims).text := by
  have hmarks : ∀ {mark : List Char}, '<' ∉ mark → ∀ n, '<' ∉ copies n mark := by
    intro mark hmark n
    simp [copies, hmark]
  simp [declarationParts, Parts.text, Parts.core, not_mem_of_blank hbefore, hmodifiers.plain,
    hname.plain, not_mem_of_blank hgap, hmarks (show '<' ∉ brackets by decide),
    hmarks (show '<' ∉ ellipsis by decide), not_mem_of_blank hafter]

theorem base_eq_of_parts {declared : String} (p : Parts) (hname : p.name = name.toList)
    (hne : name ≠ "") (hplain : '<' ∉ p.text)
    (hdeclared : declared.toList = p.text ∨ ∃ rest, declared.toList = p.text ++ '<' :: rest) :
    base declared = name := by
  have htext : declared.toList.takeWhile (· != '<') = p.text := by
    rcases hdeclared with heq | ⟨rest, heq⟩
    · rw [heq, takeWhile_of_plain hplain]
    · rw [heq, takeWhile_append_of_plain hplain]
  have hsome : p.name ≠ [] := by simpa [hname] using hne
  rw [base, baseChars_eq, htext, p.nameChars_text hsome, hname, String.ofList_toList]

end Declarations

/-- The base of a declared type is the name that stands behind its modifiers, whatever marks or type
arguments follow. -/
theorem base_declaration {modifiers name : String} (hmodifiers : Modifiers modifiers)
    (hname : IsName name) :
    (∀ before gap after dims arity, isBlank before = true → isBlank gap = true →
      isBlank after = true → (gap ≠ "" → 0 < dims) →
      base (before ++ modifiers ++ name ++ gap ++ repeated dims "[]" ++ repeated arity "..." ++
        after) = name) ∧
    (∀ before gap rest, isBlank before = true → isBlank gap = true →
      base (before ++ modifiers ++ name ++ gap ++ "<" ++ rest) = name) := by
  constructor
  · intro before gap after dims arity hbefore hgap hafter hdims
    refine base_eq_of_parts
      (declarationParts hmodifiers hname hbefore hgap hafter dims arity hdims) rfl hname.ne_empty
      (plain_declarationParts hmodifiers hname hbefore hgap hafter dims arity hdims) (.inl ?_)
    simp [declarationParts, Parts.text, Parts.core, toList_repeated, brackets, ellipsis]
  · intro before gap rest hbefore hgap
    have hempty : isBlank "" = true := rfl
    refine base_eq_of_parts
      (declarationParts hmodifiers hname hbefore hempty hgap 0 0 (absurd rfl)) rfl hname.ne_empty
      (plain_declarationParts hmodifiers hname hbefore hempty hgap 0 0 (absurd rfl))
      (.inr ⟨rest.toList, ?_⟩)
    simp [declarationParts, Parts.text, Parts.core, copies_zero]

theorem isWord_final : IsWord "final" where
  ne_empty := by decide
  unbroken := by decide
  plain := by decide

theorem isName_user : IsName "com.acme.User" where
  ne_empty := by decide
  unbroken := by decide
  plain := by decide
  no_brackets := by decide
  no_ellipsis := by decide

theorem base_declaration_user :
    base "\tfinal  com.acme.User [][]... " = "com.acme.User" ∧
      base "final  com.acme.User <? extends [T...]>[]" = "com.acme.User" := by
  have hmodifiers : Modifiers ("final" ++ "  " ++ "") := .add isWord_final rfl (by decide) .none
  obtain ⟨hmarks, harguments⟩ := base_declaration hmodifiers isName_user
  exact ⟨hmarks "\t" " " " " 2 1 rfl rfl rfl (fun _ => by decide),
    harguments "" " " "? extends [T...]>[]" rfl rfl⟩

end CallTrace.TypeName
