import CallTrace.Proofs.Build.Named

/-!
The entry points of a build. Their expansion leaves one for each signature, and the build puts all
of them into the graph; so each has a tree, and a tree of its own.
-/

namespace CallTrace

theorem Codebase.distinct_analyse (code : Codebase) (classifier : Option Classifier)
    (keep : Bool) : EntryPoint.Distinct (code.analyse classifier keep).entryPoints :=
  Hierarchy.distinct_expandEntryPoints ..

namespace Analysis

variable {a : Analysis}

theorem entryPoint?_of_mem (hdistinct : EntryPoint.Distinct a.entryPoints) {entry : EntryPoint}
    (hentry : entry ∈ a.entryPoints) : a.entryPoint? entry.signature = some entry :=
  (find?_eq_some_iff_of_nodup hdistinct).mpr ⟨hentry, rfl⟩

/-- Asked for by its signature, the tree of an entry point is the one among those of all. -/
theorem tree_entry (hdistinct : EntryPoint.Distinct a.entryPoints) {depth : Nat}
    (hdepth : depth ≤ maxTreeDepth) {entry : EntryPoint} (hentry : entry ∈ a.entryPoints)
    (hnode : a.graph.hasNode entry.signature = true) :
    a.tree entry.signature depth = .ok (a.graph.rooted depth entry) := by
  rw [tree_eq hdepth hnode, entryPoint?_of_mem hdistinct hentry]
  rfl

end Analysis

/-- All entry points of a build can be traced. Whatever a classifier tells, they have distinct
signatures, and each is a node of the graph. To every depth that may be asked for, there is one tree
for each, in order: it starts at the signature of the entry point, carries the entry point, and is
the answer for that signature alone. -/
theorem Codebase.entry_points_traced (code : Codebase) (classifier : Option Classifier)
    (keep : Bool) :
    EntryPoint.Distinct (code.analyse classifier keep).entryPoints ∧
    (∀ entry ∈ (code.analyse classifier keep).entryPoints,
      (code.analyse classifier keep).graph.hasNode entry.signature = true) ∧
    ∀ depth ≤ maxTreeDepth, ∃ trees,
      (code.analyse classifier keep).trees depth = .ok trees ∧
      List.Forall₂
        (fun entry tree =>
          tree.signature = entry.signature ∧ tree.entryPoint = some entry ∧
            (code.analyse classifier keep).tree entry.signature depth = .ok tree)
        (code.analyse classifier keep).entryPoints trees := by
  have hdistinct := code.distinct_analyse classifier keep
  have hnodes : ∀ entry ∈ (code.analyse classifier keep).entryPoints,
      (code.analyse classifier keep).graph.hasNode entry.signature = true :=
    fun entry hentry => code.hasNode_entry_analyse hentry
  refine ⟨hdistinct, hnodes, ?_⟩
  intro depth hdepth
  refine ⟨_, Analysis.trees_eq hdepth hnodes, ?_⟩
  rw [List.forall₂_map_right_iff, List.forall₂_same]
  intro entry hentry
  exact ⟨CallGraph.unfold_signature .., rfl,
    Analysis.tree_entry hdistinct hdepth hentry (hnodes entry hentry)⟩

def mailing : Codebase where
  classes :=
    [{ name := "Mailer", isInterface := true, methods := [{ name := "send" }] },
     { name := "SmtpMailer", interfaces := ["Mailer"], methods := [{ name := "send" }] },
     { name := "LogMailer", interfaces := ["Mailer"], methods := [{ name := "send" }] },
     { name := "DigestJob", fields := [⟨"mailer", "Mailer"⟩],
       methods := [{ name := "run", calls := ["mailer.send()"] }] }]

/-- Tells the interface first, then one of its implementations, then a method that is nowhere
declared, and that method again under another route. -/
def mailingRoutes : Classifier :=
  .table []
    [.ofMethod "POST" "/mail" "Mailer" "send" "", .ofMethod "POST" "/smtp" "SmtpMailer" "send" "",
     .ofMethod "BATCH" "" "Gone" "run" "", .ofMethod "GET" "/gone" "Gone" "run" ""]

theorem entry_points_traced_mailing :
    (mailingRoutes.entryPoints mailing).length = 4 ∧
    ∃ trees, (mailing.analyse (some mailingRoutes) true).trees 256 = .ok trees ∧
      trees.map (fun tree => (tree.entryPoint.map EntryPoint.descriptor, tree.signature)) =
        [(some "POST /mail", "SmtpMailer.send"), (some "POST /mail", "LogMailer.send"),
         (some "POST /mail", "Mailer.send"), (some "BATCH", "Gone.run")] := by
  obtain ⟨-, -, htrees⟩ := Codebase.entry_points_traced mailing (some mailingRoutes) true
  obtain ⟨trees, heq, hentries⟩ := htrees 256 (by decide)
  refine ⟨by decide, trees, heq, ?_⟩
  have hshown : List.Forall₂ Eq
      ((mailing.analyse (some mailingRoutes) true).entryPoints.map
        fun entry => (some entry.descriptor, entry.signature))
      (trees.map fun tree => (tree.entryPoint.map EntryPoint.descriptor, tree.signature)) := by
    rw [List.forall₂_map_left_iff, List.forall₂_map_right_iff]
    refine hentries.imp ?_
    rintro entry tree ⟨hsignature, hentry, -⟩
    rw [hsignature, hentry]
    rfl
  rw [List.forall₂_eq_eq_eq] at hshown
  rw [← hshown]
  decide

end CallTrace
