import CallTrace.Proofs.Dispatch.Calls

/-!
Interfaces that the code does not declare, such as those of libraries. Whether a name is one is
asked of the name as it is written, while implementations are looked for by further spellings of it.
The two agree except on a qualified name that no class lists in full: its implementations are found,
but calls on it are not dispatched to them.
-/

namespace CallTrace

open Hierarchy

namespace Codebase

def Lists (code : Codebase) (key : String) : Prop :=
  ∃ c ∈ code.classes, c.Implements key

/-- No class lists the interface by the name itself, but one does by another name that it is looked
for by. -/
def Overlooks (code : Codebase) (name : String) : Prop :=
  ¬code.Lists name ∧ ∃ key, code.LooksFor name key ∧ code.Lists key

variable {code : Codebase} {name : String}

theorem isInterface_iff_lists (hunknown : (ofCodebase code).contains name = false) :
    (ofCodebase code).isInterface name = true ↔ code.Lists name := by
  have hnone : (ofCodebase code).type? name = none := by
    rw [← Option.not_isSome_iff_eq_none, ← Hierarchy.contains, hunknown]
    exact Bool.false_ne_true
  unfold isInterface
  rw [hnone]
  exact isListed_ofCodebase

theorem implementors_ne_nil_iff :
    (ofCodebase code).implementors name ≠ [] ↔ ∃ key, code.LooksFor name key ∧ code.Lists key := by
  constructor
  · intro hfound
    obtain ⟨found, hmem⟩ := List.exists_mem_of_ne_nil _ hfound
    obtain ⟨c, hc, -, key, hkey, himplements⟩ := mem_implementors.mp hmem
    exact ⟨key, hkey, c, hc, himplements⟩
  · intro hlisted
    obtain ⟨key, hkey, c, hc, himplements⟩ := hlisted
    exact List.ne_nil_of_mem (mem_implementors.mpr ⟨c, hc, rfl, key, hkey, himplements⟩)

theorem Lists.implementors_ne_nil (hlists : code.Lists name) :
    (ofCodebase code).implementors name ≠ [] :=
  implementors_ne_nil_iff.mpr ⟨name, .inl rfl, hlists⟩

theorem agrees_iff_not_overlooks (hunknown : (ofCodebase code).contains name = false) :
    ((ofCodebase code).isInterface name = true ↔ (ofCodebase code).implementors name ≠ []) ↔
      ¬code.Overlooks name := by
  rw [isInterface_iff_lists hunknown, Overlooks, ← implementors_ne_nil_iff]
  constructor
  · intro hagree hoverlooked
    obtain ⟨hunlisted, hfound⟩ := hoverlooked
    exact hunlisted (hagree.mpr hfound)
  · intro hseen
    refine ⟨Lists.implementors_ne_nil, fun hfound => ?_⟩
    by_contra hunlisted
    exact hseen ⟨hunlisted, hfound⟩

/-- A name without a dot is looked for by no other name than itself. -/
theorem not_overlooks_of_plain (hunknown : (ofCodebase code).contains name = false)
    (hplain : '.' ∉ name.toList) : ¬code.Overlooks name := by
  intro hoverlooked
  obtain ⟨hunlisted, key, hkey, hlists⟩ := hoverlooked
  have hself := Text.afterLastDot_of_not_mem hplain
  rw [LooksFor, hself, or_self_left] at hkey
  rcases hkey with rfl | ⟨hname, d, hfound, -⟩
  · exact hunlisted hlists
  · have hknown : (ofCodebase code).contains name = true := by
      rw [Hierarchy.contains, type?_ofCodebase, if_neg hname, Option.mem_def.mp hfound]
      rfl
    rw [hunknown] at hknown
    cases hknown

theorem mem_targets_of_not_overlooks (hunknown : (ofCodebase code).contains name = false)
    (hseen : ¬code.Overlooks name) {method : String} {s : Signature} :
    s ∈ (ofCodebase code).targets name method ↔
      ∃ c ∈ (ofCodebase code).implementors name, (ofCodebase code).declares c method = true ∧
        Signature.join c method = s := by
  rw [mem_targets, and_iff_right_iff_imp]
  intro hfound
  obtain ⟨c, hc, -⟩ := hfound
  exact ((agrees_iff_not_overlooks hunknown).mpr hseen).mpr (List.ne_nil_of_mem hc)

theorem expandCalls_of_overlooks (hunknown : (ofCodebase code).contains name = false)
    (hoverlooked : code.Overlooks name) (g : CallGraph) (caller : Signature) (method : String) :
    (ofCodebase code).expandCalls g [⟨caller, .resolved name method⟩] = (g, {}) := by
  have hclass : (ofCodebase code).isInterface name = false :=
    Bool.eq_false_iff.mpr (mt (isInterface_iff_lists hunknown).mp hoverlooked.1)
  simp [expandCalls, expandCall, hclass]

/-- A name that no class has passes as an interface only if implementations of it can be found, and
whenever they can be found unless it is overlooked, which no name without a dot is. Calls on it then
reach every implementation that has the method; calls on an overlooked name reach none. -/
theorem unknown_interface_recognised (code : Codebase) (name : String)
    (hunknown : (ofCodebase code).contains name = false) :
    ((ofCodebase code).isInterface name = true → (ofCodebase code).implementors name ≠ []) ∧
    (((ofCodebase code).isInterface name = true ↔ (ofCodebase code).implementors name ≠ []) ↔
      ¬code.Overlooks name) ∧
    ('.' ∉ name.toList → ¬code.Overlooks name) ∧
    (¬code.Overlooks name → ∀ method s, s ∈ (ofCodebase code).targets name method ↔
      ∃ c ∈ (ofCodebase code).implementors name, (ofCodebase code).declares c method = true ∧
        Signature.join c method = s) ∧
    (code.Overlooks name → ∀ g caller method,
      (ofCodebase code).expandCalls g [⟨caller, .resolved name method⟩] = (g, {})) := by
  refine ⟨fun hinterface => ?_, agrees_iff_not_overlooks hunknown,
    not_overlooks_of_plain hunknown, fun hseen _ _ => mem_targets_of_not_overlooks hunknown hseen,
    expandCalls_of_overlooks hunknown⟩
  exact ((isInterface_iff_lists hunknown).mp hinterface).implementors_ne_nil

end Codebase

def workerWithTask : Codebase where
  classes :=
    [{ name := "Worker", fields := [⟨"task", "lib.Runnable"⟩],
       methods := [{ name := "start", calls := ["task.run()"] }] },
     { name := "CleanupTask", interfaces := ["Runnable"], methods := [{ name := "run" }] }]

theorem unknown_interface_recognised_worker :
    (ofCodebase workerWithTask).contains "Runnable" = false ∧
      ((ofCodebase workerWithTask).isInterface "Runnable" = true ↔
        (ofCodebase workerWithTask).implementors "Runnable" ≠ []) ∧
      "CleanupTask.run" ∈ (ofCodebase workerWithTask).targets "Runnable" "run" := by
  have hunknown : (ofCodebase workerWithTask).contains "Runnable" = false := by decide +kernel
  obtain ⟨-, hagree, hplain, htargets, -⟩ :=
    Codebase.unknown_interface_recognised workerWithTask "Runnable" hunknown
  have hseen := hplain (by decide)
  exact ⟨hunknown, hagree.mpr hseen, (htargets hseen "run" "CleanupTask.run").mpr
    ⟨"CleanupTask", by decide +kernel, by decide +kernel, rfl⟩⟩

theorem qualified_interface_overlooked :
    (ofCodebase workerWithTask).contains "lib.Runnable" = false ∧
      (ofCodebase workerWithTask).implementors "lib.Runnable" = ["CleanupTask"] ∧
      (ofCodebase workerWithTask).isInterface "lib.Runnable" = false ∧
      (workerWithTask.analyse none false).graph.hasEdge "Worker.start" "lib.Runnable.run" = true ∧
      (workerWithTask.analyse none false).graph.hasEdge "Worker.start" "CleanupTask.run" =
        false := by
  decide +kernel

end CallTrace
