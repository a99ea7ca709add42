import CallTrace.Proofs.CallGraph.Content
import Mathlib.Data.List.Chain
import Mathlib.Logic.Relation

namespace CallTrace.CallGraph

/-- Each signature of the list calls the next. -/
def IsWalk (g : CallGraph) (path : List Signature) : Prop :=
  path.IsChain fun u v => g.hasEdge u v = true

instance (g : CallGraph) (path : List Signature) : Decidable (g.IsWalk path) :=
  inferInstanceAs (Decidable (path.IsChain fun u v => g.hasEdge u v = true))

/-- The second signature stands at the end of a walk of so many calls from the first. -/
inductive ReachesIn (g : CallGraph) : Nat → Signature → Signature → Prop
  | refl (s : Signature) : ReachesIn g 0 s s
  | call {n : Nat} {s u v : Signature} :
      ReachesIn g n s u → g.hasEdge u v = true → ReachesIn g (n + 1) s v

namespace ReachesIn

theorem trans {g : CallGraph} {m n : Nat} {s t u : Signature} (hfirst : g.ReachesIn m s t)
    (hsecond : g.ReachesIn n t u) : g.ReachesIn (m + n) s u := by
  induction hsecond with
  | refl => exact hfirst
  | call _ hedge ih => exact .call (ih hfirst) hedge

theorem single {g : CallGraph} {s t : Signature} (hedge : g.hasEdge s t = true) :
    g.ReachesIn 1 s t :=
  .call (.refl s) hedge

theorem hasNode {g : CallGraph} (hg : g.WellFormed) {n : Nat} {s t : Signature}
    (hreach : g.ReachesIn n s t) (hs : g.hasNode s = true) : g.hasNode t = true := by
  induction hreach with
  | refl => exact hs
  | call _ hedge _ => exact hg.hasCallee hedge

end ReachesIn

def Reaches (g : CallGraph) (s t : Signature) : Prop :=
  ∃ n, g.ReachesIn n s t

namespace Reaches

theorem refl {g : CallGraph} (s : Signature) : g.Reaches s s :=
  ⟨0, .refl s⟩

theorem single {g : CallGraph} {s t : Signature} (hedge : g.hasEdge s t = true) :
    g.Reaches s t :=
  ⟨1, .single hedge⟩

theorem trans {g : CallGraph} {s t u : Signature} (hfirst : g.Reaches s t)
    (hsecond : g.Reaches t u) : g.Reaches s u := by
  obtain ⟨m, hm⟩ := hfirst
  obtain ⟨n, hn⟩ := hsecond
  exact ⟨m + n, hm.trans hn⟩

theorem hasNode {g : CallGraph} (hg : g.WellFormed) {s t : Signature} (hreach : g.Reaches s t)
    (hs : g.hasNode s = true) : g.hasNode t = true := by
  obtain ⟨n, hn⟩ := hreach
  exact hn.hasNode hg hs

end Reaches

theorem reaches_iff_reflTransGen {g : CallGraph} {s t : Signature} :
    g.Reaches s t ↔ Relation.ReflTransGen (fun u v => g.hasEdge u v = true) s t := by
  constructor
  · intro h
    obtain ⟨n, hn⟩ := h
    induction hn with
    | refl => exact .refl
    | call _ hedge ih => exact .tail ih hedge
  · intro h
    induction h with
    | refl => exact .refl s
    | tail _ hedge ih => exact ih.trans (.single hedge)

theorem isWalk_concat_concat {g : CallGraph} {above : List Signature} {u v : Signature} :
    g.IsWalk (above ++ [u] ++ [v]) ↔ g.IsWalk (above ++ [u]) ∧ g.hasEdge u v = true := by
  unfold IsWalk
  rw [List.isChain_append]
  simp

theorem IsWalk.reachesIn {g : CallGraph} {above : List Signature} {s v : Signature}
    (hwalk : g.IsWalk (above ++ [v])) (hhead : (above ++ [v]).head? = some s) :
    g.ReachesIn above.length s v := by
  induction above using List.reverseRecOn generalizing v with
  | nil =>
      cases hhead
      exact .refl _
  | append_singleton above u ih =>
      obtain ⟨hinit, hedge⟩ := isWalk_concat_concat.mp hwalk
      rw [List.length_append, List.length_singleton]
      refine .call (ih hinit ?_) hedge
      simpa using hhead

theorem IsWalk.reaches_first {g : CallGraph} {path : List Signature} {s t : Signature}
    (hwalk : g.IsWalk path) (hhead : path.head? = some s) (ht : t ∈ path) : g.Reaches s t := by
  obtain ⟨before, after, hsplit⟩ := List.append_of_mem ht
  have hsplit' : path = (before ++ [t]) ++ after := by simpa using hsplit
  rw [hsplit'] at hwalk hhead
  have hinit : g.IsWalk (before ++ [t]) := hwalk.left_of_append
  exact ⟨before.length, hinit.reachesIn (by simpa using hhead)⟩

theorem IsWalk.reaches_last {g : CallGraph} {path : List Signature} {u t : Signature}
    (hwalk : g.IsWalk (path ++ [u])) (ht : t ∈ path ++ [u]) : g.Reaches t u := by
  induction path using List.reverseRecOn generalizing u with
  | nil =>
      obtain rfl : t = u := by simpa using ht
      exact .refl t
  | append_singleton path w ih =>
      obtain ⟨hinit, hedge⟩ := isWalk_concat_concat.mp hwalk
      rcases List.mem_append.mp ht with hinner | hlast
      · exact (ih hinit hinner).trans (.single hedge)
      · obtain rfl := List.mem_singleton.mp hlast
        exact .refl t

/-- What is reached at all is reached, in no more calls, along a walk that repeats nothing. -/
theorem ReachesIn.exists_simple {g : CallGraph} {n : Nat} {s v : Signature}
    (hreach : g.ReachesIn n s v) :
    ∃ above, g.IsWalk (above ++ [v]) ∧ (above ++ [v]).head? = some s ∧
      (above ++ [v]).Nodup ∧ above.length ≤ n := by
  induction hreach with
  | refl => exact ⟨[], by simp [IsWalk], rfl, by simp, Nat.le_refl 0⟩
  | @call n s u v _ hedge ih =>
      obtain ⟨above, hwalk, hhead, hnodup, hlength⟩ := ih
      by_cases hv : v ∈ above ++ [u]
      · -- the walk has been at `v` before, so the way back to it is cut off
        obtain ⟨before, after, hsplit⟩ := List.append_of_mem hv
        have hsplit' : above ++ [u] = (before ++ [v]) ++ after := by simpa using hsplit
        rw [hsplit'] at hwalk hhead hnodup
        refine ⟨before, hwalk.left_of_append, ?_, hnodup.of_append_left, ?_⟩
        · simpa using hhead
        · have := congrArg List.length hsplit'
          simp only [List.length_append, List.length_singleton] at this
          omega
      · refine ⟨above ++ [u], isWalk_concat_concat.mpr ⟨hwalk, hedge⟩, ?_, ?_, ?_⟩
        · simpa using hhead
        · simpa using List.Nodup.concat hv hnodup
        · rw [List.length_append, List.length_singleton]
          omega

end CallTrace.CallGraph
