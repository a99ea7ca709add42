import CallTrace.Proofs.Build.Content
import CallTrace.Proofs.Codebase.Pruned
import CallTrace.Proofs.Text.Dotted

/-!
What the classifiers tell of code without unnamed classes and methods. They go class by class and
method by method, and leave classes with a blank name out; so they tell the same of the rest, unless
one of their entry points is a method with a blank name.
-/

namespace CallTrace

namespace Text

theorem isBlank_eq_false_of_suffix {s ending : String}
    (h : ending.toList.isSuffixOf s.toList = true) (hending : isBlank ending = false) :
    isBlank s = false := by
  obtain ⟨c, hc, hchar⟩ := List.all_eq_false.mp hending
  exact isBlank_eq_false_of_mem ((List.isSuffixOf_iff_suffix.mp h).mem hc) (by simpa using hchar)

theorem not_dot_mem_of_isBlank {s : String} (h : isBlank s = true) : '.' ∉ s.toList := by
  intro hdot
  have hblank := List.all_eq_true.mp h '.' hdot
  revert hblank
  decide

end Text

/-- The entry points of a class, each made from one of its methods, need no method with a blank
name unless one of them is such a method. -/
theorem ClassDecl.filterMap_pruned {c : ClassDecl} {f : MethodDecl → Option EntryPoint}
    (hf : ∀ m entry, f m = some entry → entry.signature = Signature.join c.name m.name)
    (hnamed : ∀ entry ∈ c.methods.filterMap f, Text.isBlank entry.method = false) :
    c.pruned.methods.filterMap f = c.methods.filterMap f := by
  rw [pruned, List.filterMap_filter]
  apply List.filterMap_congr
  intro m hm
  cases hblank : Text.isBlank m.name with
  | false => rfl
  | true =>
      cases hentry : f m with
      | none => rfl
      | some entry =>
          have hmethod : entry.method = m.name := by
            rw [EntryPoint.method, hf m entry hentry,
              Signature.method_join _ (Text.not_dot_mem_of_isBlank hblank)]
          have hshown := hnamed entry (List.mem_filterMap.mpr ⟨m, hm, hentry⟩)
          rw [hmethod, hblank] at hshown
          contradiction

namespace Classifier

def TellsNamed (classifier : Classifier) (code : Codebase) : Prop :=
  ∀ entry ∈ classifier.entryPoints code, Text.isBlank entry.method = false

instance (classifier : Classifier) (code : Codebase) : Decidable (classifier.TellsNamed code) :=
  inferInstanceAs (Decidable (∀ entry ∈ classifier.entryPoints code, _))

/-- Apart from methods with a blank name that it tells itself, a classifier asks only for what has
a name: it tells the same without the rest, its entry points are in classes with a name, and layers
do not depend on methods. -/
structure AsksNamed (classifier : Classifier) (code : Codebase) : Prop where
  entryPoints : classifier.TellsNamed code →
    classifier.entryPoints code.pruned = classifier.entryPoints code
  owner : ∀ entry ∈ classifier.entryPoints code, ∃ c ∈ code.classes,
    Text.isBlank c.name = false ∧ entry.className = c.name
  layerOf : ∀ className decl method,
    classifier.layerOf className (decl.map ClassDecl.pruned) method =
      classifier.layerOf className decl method

theorem flatMap_pruned {code : Codebase} {entriesOf : ClassDecl → List EntryPoint}
    (hblank : ∀ c ∈ code.classes, Text.isBlank c.name = true → entriesOf c = [])
    (hnamed : ∀ c ∈ code.classes, entriesOf c.pruned = entriesOf c) :
    code.pruned.classes.flatMap entriesOf = code.classes.flatMap entriesOf := by
  rw [Codebase.pruned, List.flatMap_map]
  obtain ⟨classes⟩ := code
  dsimp only at hblank hnamed ⊢
  induction classes with
  | nil => rfl
  | cons c rest ih =>
      have hrest := ih (fun d hd => hblank d (List.mem_cons_of_mem _ hd))
        fun d hd => hnamed d (List.mem_cons_of_mem _ hd)
      cases hc : Text.isBlank c.name with
      | true =>
          rw [List.filter_cons_of_neg (by simp [hc]), hrest, List.flatMap_cons,
            hblank c List.mem_cons_self hc, List.nil_append]
      | false =>
          rw [List.filter_cons_of_pos (by simp [hc]), List.flatMap_cons, hrest,
            hnamed c List.mem_cons_self, List.flatMap_cons]

structure ByMethod (entryOf : ClassDecl → MethodDecl → Option EntryPoint) : Prop where
  pruned : ∀ c, entryOf c.pruned = entryOf c
  ofMethod : ∀ {c m entry}, entryOf c m = some entry → Text.isBlank c.name = false ∧
    ∃ kind path, entry = .ofMethod kind path c.name m.name c.filePath

theorem ByMethod.asksNamed {entryOf : ClassDecl → MethodDecl → Option EntryPoint}
    (h : ByMethod entryOf) {classifier : Classifier}
    (hentries : ∀ code, classifier.entryPoints code =
      code.classes.flatMap fun c => c.methods.filterMap (entryOf c))
    (hlayer : ∀ className decl method,
      classifier.layerOf className (decl.map ClassDecl.pruned) method =
        classifier.layerOf className decl method)
    (code : Codebase) : classifier.AsksNamed code where
  entryPoints htells := by
    rw [TellsNamed, hentries] at htells
    rw [hentries, hentries]
    apply flatMap_pruned
    · intro c _ hblank
      rw [List.filterMap_eq_nil_iff]
      intro m _
      cases hentry : entryOf c m with
      | none => rfl
      | some entry =>
          rw [(h.ofMethod hentry).1] at hblank
          contradiction
    · intro c hc
      rw [h.pruned]
      apply ClassDecl.filterMap_pruned
      · intro m entry hentry
        obtain ⟨-, kind, path, rfl⟩ := h.ofMethod hentry
        rfl
      · intro entry hentry
        exact htells entry (List.mem_flatMap.mpr ⟨c, hc, hentry⟩)
  owner entry hentry := by
    rw [hentries] at hentry
    obtain ⟨c, hc, hentry⟩ := List.mem_flatMap.mp hentry
    obtain ⟨m, -, hentry⟩ := List.mem_filterMap.mp hentry
    obtain ⟨hname, kind, path, rfl⟩ := h.ofMethod hentry
    exact ⟨c, hc, hname, rfl⟩
  layerOf := hlayer

namespace Spring

def entryOf (c : ClassDecl) (m : MethodDecl) : Option EntryPoint :=
  if Text.isBlank c.name then none
  else (methodRoute? (classRoute c) m).map fun (kind, path) =>
    .ofMethod kind path c.name m.name c.filePath

theorem classEntryPoints_eq (c : ClassDecl) :
    classEntryPoints c = c.methods.filterMap (entryOf c) := by
  unfold classEntryPoints entryOf
  split <;> simp

theorem of_entryOf {c : ClassDecl} {m : MethodDecl} {entry : EntryPoint}
    (h : entryOf c m = some entry) :
    Text.isBlank c.name = false ∧
      ∃ kind path, entry = .ofMethod kind path c.name m.name c.filePath := by
  unfold entryOf at h
  split at h
  · contradiction
  · rename_i hname
    obtain ⟨⟨kind, path⟩, -, rfl⟩ := Option.map_eq_some_iff.mp h
    exact ⟨by simpa using hname, kind, path, rfl⟩

end Spring

namespace Naming

def entryOf (c : ClassDecl) (m : MethodDecl) : Option EntryPoint :=
  if c.name == "" then none
  else if endsWith c.name "Controller" then
    if isHandler c.name m.name then some (.ofMethod "HANDLER" "" c.name m.name c.filePath) else none
  else if isBatch c then
    if m.name == "execute" || m.name == "run" then
      some (.ofMethod "BATCH" c.name c.name m.name c.filePath)
    else none
  else none

theorem classEntryPoints_eq (c : ClassDecl) :
    classEntryPoints c = c.methods.filterMap (entryOf c) := by
  have hmap : ∀ (p : MethodDecl → Bool) (f : MethodDecl → EntryPoint),
      (c.methods.filter p).map f =
        c.methods.filterMap fun m => if p m then some (f m) else none := by
    intro p f
    rw [← List.filterMap_eq_map, List.filterMap_filter]
    rfl
  unfold classEntryPoints entryOf
  split
  · simp
  · split
    · exact hmap ..
    · split
      · exact hmap ..
      · simp

theorem of_entryOf {c : ClassDecl} {m : MethodDecl} {entry : EntryPoint}
    (h : entryOf c m = some entry) :
    Text.isBlank c.name = false ∧
      ∃ kind path, entry = .ofMethod kind path c.name m.name c.filePath := by
  unfold entryOf at h
  split at h
  · contradiction
  · split at h
    · rename_i hcontroller
      split at h <;> cases h
      exact ⟨Text.isBlank_eq_false_of_suffix hcontroller (by decide), _, _, rfl⟩
    · split at h
      · rename_i hbatch
        split at h <;> cases h
        refine ⟨?_, _, _, rfl⟩
        rw [isBatch, Bool.and_eq_true, Bool.or_eq_true] at hbatch
        rcases hbatch.2 with hjob | htasklet
        · exact Text.isBlank_eq_false_of_suffix hjob (by decide)
        · exact Text.isBlank_eq_false_of_suffix htasklet (by decide)
      · contradiction

end Naming

theorem asksNamed_spring (code : Codebase) : spring.AsksNamed code := by
  have hmethods : ByMethod Spring.entryOf := ⟨fun _ => rfl, Spring.of_entryOf⟩
  refine hmethods.asksNamed ?_ (fun _ decl _ => by cases decl <;> rfl) code
  exact fun code => List.flatMap_congr fun c _ => Spring.classEntryPoints_eq c

theorem asksNamed_naming (code : Codebase) : naming.AsksNamed code := by
  have hmethods : ByMethod Naming.entryOf := ⟨fun _ => rfl, Naming.of_entryOf⟩
  refine hmethods.asksNamed ?_ (fun _ _ _ => rfl) code
  exact fun code => List.flatMap_congr fun c _ => Naming.classEntryPoints_eq c

theorem asksNamed_composite {members : List Classifier} {code : Codebase}
    (hmembers : ∀ member ∈ members, member.AsksNamed code) :
    (composite members).AsksNamed code where
  entryPoints htells := by
    have hnames : ∀ member ∈ members, member.TellsNamed code := by
      intro member hmember entry hentry
      have hnamed : EntryPoint.Names ((composite members).entryPoints code) entry.signature := by
        refine EntryPoint.names_firstBySignature.mpr ⟨entry, ?_, rfl⟩
        exact List.mem_flatMap.mpr ⟨member, hmember, hentry⟩
      obtain ⟨first, hfirst, hsame⟩ := hnamed
      rw [EntryPoint.method, ← hsame]
      exact htells first hfirst
    have hsame : members.flatMap (fun member => member.entryPoints code.pruned) =
        members.flatMap fun member => member.entryPoints code :=
      List.flatMap_congr fun member hmember =>
        (hmembers member hmember).entryPoints (hnames member hmember)
    exact congrArg EntryPoint.firstBySignature hsame
  owner entry hentry := by
    obtain ⟨member, hmember, htold⟩ := exists_member_of_mem_composite hentry
    exact (hmembers member hmember).owner entry htold
  layerOf className decl method := by
    have hsame : members.map (fun member =>
          member.layerOf className (decl.map ClassDecl.pruned) method) =
        members.map fun member => member.layerOf className decl method :=
      List.map_congr_left fun member hmember => (hmembers member hmember).layerOf ..
    exact congrArg firstKnown hsame

end Classifier

theorem ClassifierChoice.asksNamed {choice : ClassifierChoice} {classifier : Classifier}
    (h : classifier ∈ choice.classifier?) (code : Codebase) : classifier.AsksNamed code := by
  cases choice with
  | spring =>
      cases h
      exact Classifier.asksNamed_spring code
  | naming =>
      cases h
      exact Classifier.asksNamed_naming code
  | composite =>
      cases h
      apply Classifier.asksNamed_composite
      intro member hmember
      simp only [List.mem_cons, List.not_mem_nil, or_false] at hmember
      rcases hmember with rfl | rfl
      · exact Classifier.asksNamed_spring code
      · exact Classifier.asksNamed_naming code
  | none => cases h

end CallTrace
