import CallTrace.Proofs.Text.Trim

/-!
Texts as words with blanks between them. A text is taken apart into its last word, what stands in
front of that word, and blanks behind it; and a text without blanks that ends another one ends its
last word.
-/

namespace CallTrace.Text

def Blank (cs : List Char) : Prop :=
  ∀ c ∈ cs, isBlankChar c = true

def Unbroken (cs : List Char) : Prop :=
  ∀ c ∈ cs, isBlankChar c = false

instance (cs : List Char) : Decidable (Unbroken cs) :=
  decidable_of_iff (cs.all (fun c => !isBlankChar c) = true) (by simp [Unbroken])

/-- A word can begin behind this text: it is empty or ends with a blank. -/
def BreaksOff (cs : List Char) : Prop :=
  ∀ c ∈ cs.getLast?, isBlankChar c = true

theorem isBlank_iff {s : String} : isBlank s = true ↔ Blank s.toList :=
  List.all_eq_true

theorem Blank.append {cs rest : List Char} (hcs : Blank cs) (hrest : Blank rest) :
    Blank (cs ++ rest) :=
  List.forall_mem_append.mpr ⟨hcs, hrest⟩

theorem Blank.breaksOff {cs : List Char} (h : Blank cs) : BreaksOff cs :=
  fun c hc => h c (List.mem_of_getLast? hc)

theorem BreaksOff.append {cs rest : List Char} (hcs : BreaksOff cs) (hrest : BreaksOff rest) :
    BreaksOff (cs ++ rest) := by
  intro c hc
  rw [Option.mem_def, List.getLast?_append] at hc
  rcases Option.or_eq_some_iff.mp hc with hlast | ⟨-, hlast⟩
  · exact hrest c hlast
  · exact hcs c hlast

theorem BreaksOff.dropWhile {cs : List Char} (h : BreaksOff cs) (p : Char → Bool) :
    BreaksOff (cs.dropWhile p) := by
  intro c hc
  obtain ⟨cut, heq⟩ : cs.dropWhile p <:+ cs := List.dropWhile_suffix p
  refine h c ?_
  rw [← heq, List.getLast?_append, Option.mem_def.mp hc, Option.mem_def, Option.some_or]

theorem Blank.breaksOff_append {gap : List Char} (h : Blank gap) (hne : gap ≠ []) (cs : List Char) :
    BreaksOff (cs ++ gap) := by
  intro c hc
  rw [Option.mem_def, List.getLast?_append_of_ne_nil cs hne] at hc
  exact h.breaksOff c hc

theorem BreaksOff.eq_nil {cs rest : List Char} (h : BreaksOff (cs ++ rest)) (hrest : Unbroken rest) :
    rest = [] := by
  by_contra hne
  have hblank := h (rest.getLast hne)
    (by rw [Option.mem_def, List.getLast?_append_of_ne_nil cs hne, List.getLast?_eq_some_getLast hne])
  rw [hrest _ (List.getLast_mem hne)] at hblank
  cases hblank

theorem Unbroken.append {cs rest : List Char} (hcs : Unbroken cs) (hrest : Unbroken rest) :
    Unbroken (cs ++ rest) :=
  List.forall_mem_append.mpr ⟨hcs, hrest⟩

theorem Unbroken.trimmed {cs : List Char} (h : Unbroken cs) :
    cs.head?.any isBlankChar = false ∧ cs.getLast?.any isBlankChar = false := by
  constructor
  · cases hhead : cs.head? with
    | none => rfl
    | some c => exact h c (List.mem_of_mem_head? hhead)
  · cases hlast : cs.getLast? with
    | none => rfl
    | some c => exact h c (List.mem_of_getLast? hlast)

theorem unbroken_lastWord (cs : List Char) : Unbroken (lastWord cs) := by
  intro c hc
  rw [lastWord, List.mem_reverse] at hc
  simpa using List.mem_takeWhile_imp hc

/-- Every text is its last word with what stands around it. -/
theorem exists_eq_lastWord (cs : List Char) :
    ∃ front gap, cs = front ++ lastWord cs ++ gap ∧ BreaksOff front ∧ Blank gap := by
  have hgap : ∀ c ∈ cs.reverse.takeWhile isBlankChar, isBlankChar c = true :=
    fun c hc => List.mem_takeWhile_imp hc
  refine ⟨((cs.reverse.dropWhile isBlankChar).dropWhile fun c => !isBlankChar c).reverse,
    (cs.reverse.takeWhile isBlankChar).reverse, ?_, ?_, ?_⟩
  · rw [lastWord, ← List.reverse_append, List.takeWhile_append_dropWhile, ← List.reverse_append,
      List.takeWhile_append_dropWhile, List.reverse_reverse]
  · intro c hc
    rw [List.getLast?_reverse] at hc
    have hhead := List.head?_dropWhile_not (fun c => !isBlankChar c)
      (cs.reverse.dropWhile isBlankChar)
    rw [Option.mem_def.mp hc] at hhead
    simpa using hhead
  · intro c hc
    exact hgap c (List.mem_reverse.mp hc)

theorem lastWord_append {front word gap : List Char} (hfront : BreaksOff front)
    (hword : Unbroken word) (hne : word ≠ []) (hgap : Blank gap) :
    lastWord (front ++ word ++ gap) = word := by
  have hreverse : (front ++ word ++ gap).reverse = gap.reverse ++ (word.reverse ++ front.reverse) := by
    simp
  have hblank : ∀ c ∈ gap.reverse, isBlankChar c = true :=
    fun c hc => hgap c (List.mem_reverse.mp hc)
  have hunbroken : ∀ c ∈ word.reverse, (!isBlankChar c) = true := by
    intro c hc
    rw [hword c (List.mem_reverse.mp hc)]
    rfl
  have hstart : (word.reverse ++ front.reverse).dropWhile isBlankChar =
      word.reverse ++ front.reverse := by
    rw [dropWhile_eq_self_iff, List.head?_append, List.head?_reverse, List.getLast?_eq_some_getLast hne]
    exact hword _ (List.getLast_mem hne)
  have hstop : front.reverse.takeWhile (fun c => !isBlankChar c) = [] := by
    rcases List.eq_nil_or_concat front with rfl | ⟨rest, c, rfl⟩
    · rfl
    · have hc : isBlankChar c = true := hfront c (by simp)
      simp [hc]
  rw [lastWord, hreverse, List.dropWhile_append_of_pos hblank, hstart,
    List.takeWhile_append_of_pos hunbroken, hstop, List.append_nil, List.reverse_reverse]

/-- What ends a text and has no blanks ends its last word, and nothing is behind that word. -/
theorem suffix_word_iff {mark front word gap : List Char} (hmark : Unbroken mark) (hne : mark ≠ [])
    (hfront : BreaksOff front) (hgap : Blank gap) :
    mark <:+ front ++ word ++ gap ↔ gap = [] ∧ mark <:+ word := by
  constructor
  · intro hends
    obtain ⟨cut, heq⟩ := hends
    have hnone : gap = [] := by
      by_contra hsome
      have hbreaks : BreaksOff (cut ++ mark) := heq ▸ hgap.breaksOff_append hsome (front ++ word)
      exact hne (hbreaks.eq_nil hmark)
    rw [hnone, List.append_nil] at heq
    refine ⟨hnone, ?_⟩
    rcases List.append_eq_append_iff.mp heq with ⟨part, hsplit, rfl⟩ | ⟨part, -, rfl⟩
    · -- a part of the mark that ended the front would be blank
      have hpart : part = [] := (hsplit ▸ hfront : BreaksOff (cut ++ part)).eq_nil
        fun c hc => hmark c (List.mem_append_left word hc)
      subst hpart
      exact List.suffix_refl word
    · exact List.suffix_append part mark
  · rintro ⟨rfl, hword⟩
    rw [List.append_nil]
    exact List.suffix_append_of_suffix hword

theorem exists_eq_trimChars (cs : List Char) :
    ∃ before after, cs = before ++ trimChars cs ++ after ∧ Blank before ∧ Blank after := by
  refine ⟨cs.takeWhile isBlankChar, (cs.dropWhile isBlankChar).rtakeWhile isBlankChar, ?_, ?_, ?_⟩
  · have hend : trimChars cs ++ (cs.dropWhile isBlankChar).rtakeWhile isBlankChar =
        cs.dropWhile isBlankChar := List.rdropWhile_append_rtakeWhile
    rw [List.append_assoc, hend, List.takeWhile_append_dropWhile]
  · exact fun c hc => List.mem_takeWhile_imp hc
  · exact fun c hc => List.mem_rtakeWhile_imp hc

theorem trimChars_append {front body after : List Char} (hbody : trimChars body = body)
    (hne : body ≠ []) (hafter : Blank after) :
    trimChars (front ++ body ++ after) = front.dropWhile isBlankChar ++ body := by
  obtain ⟨hhead, hlast⟩ := dropBothWhile_eq_self_iff.mp hbody
  have hstart : (front ++ body ++ after).dropWhile isBlankChar =
      front.dropWhile isBlankChar ++ body ++ after := by
    have hstop : (body ++ after).dropWhile isBlankChar = body ++ after := by
      rw [dropWhile_eq_self_iff, List.head?_append_of_ne_nil _ hne]
      exact hhead
    rw [List.append_assoc, List.dropWhile_append, hstop, List.append_assoc]
    split
    · rename_i hfront
      rw [List.isEmpty_iff.mp hfront, List.nil_append]
    · rfl
  have hcut : ∀ cs, dropEndWhile isBlankChar (cs ++ after) = dropEndWhile isBlankChar cs := by
    intro cs
    rw [dropEndWhile, List.reverse_append, List.dropWhile_append_of_pos, ← dropEndWhile]
    exact fun c hc => hafter c (List.mem_reverse.mp hc)
  have hend : dropEndWhile isBlankChar (front.dropWhile isBlankChar ++ body) =
      front.dropWhile isBlankChar ++ body := by
    rw [dropEndWhile_eq_self_iff, List.getLast?_append_of_ne_nil _ hne]
    exact hlast
  rw [trimChars, dropBothWhile, hstart, hcut, hend]

theorem Blank.dropWhile {cs : List Char} (h : Blank cs) : cs.dropWhile isBlankChar = [] :=
  List.dropWhile_eq_nil_iff.mpr h

structure Trimmed (s core : String) : Prop where
  eq_append : ∃ before after, isBlank before = true ∧ isBlank after = true ∧
    s = before ++ core ++ after
  startsBlank : startsBlank core = false
  endsBlank : endsBlank core = false

theorem trimmed_trim (s : String) : Trimmed s (trim s) where
  eq_append := by
    obtain ⟨before, after, heq, hbefore, hafter⟩ := exists_eq_trimChars s.toList
    refine ⟨String.ofList before, String.ofList after, ?_, ?_, ?_⟩
    · simpa [isBlank_iff] using hbefore
    · simpa [isBlank_iff] using hafter
    · rw [← String.toList_inj]
      simpa [trim] using heq
  startsBlank := by
    rw [Text.startsBlank, trim, String.toList_ofList]
    cases hhead : (trimChars s.toList).head? with
    | none => rfl
    | some c => exact head?_dropBothWhile hhead
  endsBlank := by
    rw [Text.endsBlank, trim, String.toList_ofList]
    cases hlast : (trimChars s.toList).getLast? with
    | none => rfl
    | some c => exact getLast?_dropBothWhile hlast

theorem trim_eq_iff {s core : String} : trim s = core ↔ Trimmed s core := by
  constructor
  · rintro rfl
    exact trimmed_trim s
  · rintro ⟨⟨before, after, hbefore, hafter, rfl⟩, hstart, hend⟩
    rw [isBlank_iff] at hbefore hafter
    rw [trim, ← String.toList_inj, String.toList_ofList, String.toList_append, String.toList_append]
    by_cases hne : core.toList = []
    · have hblank : Blank (before.toList ++ core.toList ++ after.toList) := by
        rw [hne, List.append_nil]
        exact hbefore.append hafter
      rw [trimChars, dropBothWhile, hblank.dropWhile, hne]
      rfl
    · have hcore : trimChars core.toList = core.toList := dropBothWhile_eq_self_iff.mpr ⟨hstart, hend⟩
      rw [trimChars_append hcore hne hafter, hbefore.dropWhile, List.nil_append]

end CallTrace.Text
