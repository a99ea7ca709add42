import CallTrace.CallGraph
import CallTrace.CallTree

/-!
The walk that builds call trees: depth first, with the open nodes of the current path on a stack
and their signatures in a set beside it. It needs no more room than the path, and a callee that is
on the path is not opened again.
-/

namespace CallTrace.CallGraph

def deeper? (depth : Nat) : Option Nat :=
  if depth + 1 < depthBound then some (depth + 1) else none

/-- The signature as the graph holds it, empty when it holds none. -/
def interned (g : CallGraph) (s : Signature) : Signature :=
  match g.node? s with
  | some n => n.signature
  | none => ""

/-- An open node: the subtrees below it that are finished, last first, and the callees to come. -/
structure WalkFrame where
  signature : Signature
  layer : Layer
  depth : Nat
  finished : List CallTree
  pending : List Signature

namespace WalkFrame

/-- Opens a node; below the greatest depth it has no callees. -/
def ofNode (g : CallGraph) (maxDepth depth : Nat) (s : Signature) : WalkFrame where
  signature := s
  layer := g.layerOf s
  depth := depth
  finished := []
  pending := if depth < maxDepth then g.successors s else []

def tree (frame : WalkFrame) : CallTree :=
  { signature := frame.signature
    layer := frame.layer
    children := frame.finished.reverse }

def attach (frame : WalkFrame) (tree : CallTree) : WalkFrame :=
  { frame with finished := tree :: frame.finished }

end WalkFrame

/-- A walk under way: the open nodes, the last one first, and the signatures on the path. -/
structure WalkState where
  frames : List WalkFrame
  onPath : List Signature

inductive WalkFault where
  | noOpenNode
  | nothingToClose
  | depthOverflow
  deriving DecidableEq, Repr

inductive WalkTurn where
  | next (state : WalkState)
  | finished (tree : CallTree)
  | fault (fault : WalkFault)

namespace WalkState

def start (g : CallGraph) (maxDepth : Nat) (root : Signature) : WalkState where
  frames := [.ofNode g maxDepth 0 root]
  onPath := [g.interned root]

/-- Takes up the next callee of the top node: on the path it is a leaf, else it is opened. -/
def visit (g : CallGraph) (maxDepth : Nat) (state : WalkState) (top : WalkFrame)
    (below : List WalkFrame) (callee : Signature) : WalkTurn :=
  match deeper? top.depth with
  | none => .fault .depthOverflow
  | some depth =>
      if callee ∈ state.onPath then
        .next
          { state with frames := top.attach (.circularLeaf callee (g.layerOf callee)) :: below }
      else
        .next
          { frames := .ofNode g maxDepth depth callee :: top :: below
            onPath := callee :: state.onPath }

def close (state : WalkState) : WalkTurn :=
  match state.frames with
  | [] => .fault .nothingToClose
  | [root] => .finished root.tree
  | top :: parent :: below =>
      .next
        { frames := parent.attach top.tree :: below
          onPath := state.onPath.filter fun s => s != top.signature }

def turn (g : CallGraph) (maxDepth : Nat) (state : WalkState) : WalkTurn :=
  match state.frames with
  | [] => .fault .noOpenNode
  | top :: below =>
      match top.pending with
      | callee :: rest => state.visit g maxDepth { top with pending := rest } below callee
      | [] => state.close

end WalkState

namespace WalkFrame

/-- Turns one pending callee may take, with so many levels left below it. -/
def callCost (width : Nat) : Nat → Nat
  | 0 => 2
  | levels + 1 => width * callCost width levels + 2

def cost (width maxDepth : Nat) (frame : WalkFrame) : Nat :=
  frame.pending.length * callCost width (maxDepth - frame.depth) + 1

def totalCost (width maxDepth : Nat) : List WalkFrame → Nat
  | [] => 0
  | frame :: rest => frame.cost width maxDepth + totalCost width maxDepth rest

theorem two_le_callCost (width levels : Nat) : 2 ≤ callCost width levels := by
  cases levels <;> simp [callCost]

theorem cost_pending_cons (width maxDepth : Nat) {frame : WalkFrame} {callee : Signature}
    {rest : List Signature} (hpending : frame.pending = callee :: rest) :
    frame.cost width maxDepth =
      WalkFrame.cost width maxDepth { frame with pending := rest } +
        callCost width (maxDepth - frame.depth) := by
  simp only [cost, hpending, List.length_cons, Nat.add_mul]
  omega

@[simp] theorem cost_attach (width maxDepth : Nat) (frame : WalkFrame) (tree : CallTree) :
    (frame.attach tree).cost width maxDepth = frame.cost width maxDepth := rfl

end WalkFrame

theorem length_successors_le (g : CallGraph) (s : Signature) :
    (g.successors s).length ≤ g.arcs.length := by
  simp only [GraphStore.successors, GraphStore.neighbours]
  split
  · exact Nat.zero_le _
  · rw [sortSignatures, length_sortBy]
    exact Nat.le_trans (List.length_filterMap_le _ _) (List.length_filter_le _ _)

theorem WalkFrame.cost_ofNode_lt (g : CallGraph) (maxDepth depth : Nat) (s : Signature) :
    (WalkFrame.ofNode g maxDepth (depth + 1) s).cost g.arcs.length maxDepth <
      WalkFrame.callCost g.arcs.length (maxDepth - depth) := by
  simp only [WalkFrame.cost, WalkFrame.ofNode]
  split
  · rename_i h
    obtain ⟨levels, hlevels⟩ : ∃ levels, maxDepth - depth = levels + 1 :=
      ⟨maxDepth - depth - 1, by omega⟩
    have hnext : maxDepth - (depth + 1) = levels := by omega
    rw [hlevels, hnext, WalkFrame.callCost]
    have := Nat.mul_le_mul_right (WalkFrame.callCost g.arcs.length levels)
      (g.length_successors_le s)
    omega
  · have := WalkFrame.two_le_callCost g.arcs.length (maxDepth - depth)
    simp only [List.length_nil]
    omega

theorem deeper?_eq_some {depth next : Nat} (h : deeper? depth = some next) :
    next = depth + 1 := by
  unfold deeper? at h
  split at h
  · exact (Option.some.inj h).symm
  · contradiction

theorem deeper?_of_lt {depth maxDepth : Nat} (hdepth : depth < maxDepth)
    (hbound : maxDepth < depthBound) : deeper? depth = some (depth + 1) := by
  rw [deeper?, if_pos (by omega)]

namespace WalkState

def cost (g : CallGraph) (maxDepth : Nat) (state : WalkState) : Nat :=
  WalkFrame.totalCost g.arcs.length maxDepth state.frames

theorem cost_visit_lt {g : CallGraph} {maxDepth : Nat} {state after : WalkState}
    {top : WalkFrame} {below : List WalkFrame} {callee : Signature}
    (h : state.visit g maxDepth top below callee = .next after) :
    after.cost g maxDepth <
      WalkFrame.totalCost g.arcs.length maxDepth (top :: below) +
        WalkFrame.callCost g.arcs.length (maxDepth - top.depth) := by
  have htwo := WalkFrame.two_le_callCost g.arcs.length (maxDepth - top.depth)
  unfold visit at h
  split at h
  · contradiction
  · rename_i depth hdepth
    split at h
    · cases h
      simp only [cost, WalkFrame.totalCost, WalkFrame.cost_attach]
      omega
    · cases h
      have hopen := WalkFrame.cost_ofNode_lt g maxDepth top.depth callee
      rw [deeper?_eq_some hdepth]
      simp only [cost, WalkFrame.totalCost]
      omega

theorem cost_close_lt {g : CallGraph} {maxDepth : Nat} {state after : WalkState}
    (h : state.close = .next after) : after.cost g maxDepth < state.cost g maxDepth := by
  unfold close at h
  split at h
  · contradiction
  · contradiction
  · rename_i top parent below hframes
    cases h
    have htop : 0 < top.cost g.arcs.length maxDepth := Nat.succ_pos _
    simp only [cost, hframes, WalkFrame.totalCost, WalkFrame.cost_attach]
    omega

theorem cost_turn_lt {g : CallGraph} {maxDepth : Nat} {state after : WalkState}
    (h : state.turn g maxDepth = .next after) : after.cost g maxDepth < state.cost g maxDepth := by
  unfold turn at h
  split at h
  · contradiction
  · rename_i top below hframes
    split at h
    · rename_i callee rest hpending
      have hvisit := cost_visit_lt h
      have htop := WalkFrame.cost_pending_cons g.arcs.length maxDepth hpending
      simp only [WalkFrame.totalCost] at hvisit
      simp only [cost, hframes, WalkFrame.totalCost] at hvisit ⊢
      omega
    · exact cost_close_lt h

end WalkState

def walk (g : CallGraph) (maxDepth : Nat) (state : WalkState) : Except WalkFault CallTree :=
  match _hturn : state.turn g maxDepth with
  | .next after => g.walk maxDepth after
  | .finished tree => .ok tree
  | .fault fault => .error fault
termination_by state.cost g maxDepth
decreasing_by exact WalkState.cost_turn_lt _hturn

namespace WalkState

/-- Some node is open, and none at the greatest depth awaits a callee. -/
structure Sound (maxDepth : Nat) (state : WalkState) : Prop where
  frames_ne_nil : state.frames ≠ []
  depth_lt : ∀ frame ∈ state.frames, frame.pending ≠ [] → frame.depth < maxDepth

theorem depth_lt_ofNode {g : CallGraph} {maxDepth depth : Nat} {s : Signature}
    (h : (WalkFrame.ofNode g maxDepth depth s).pending ≠ []) : depth < maxDepth := by
  unfold WalkFrame.ofNode at h
  split at h
  · assumption
  · contradiction

theorem sound_start (g : CallGraph) (maxDepth : Nat) (root : Signature) :
    (start g maxDepth root).Sound maxDepth where
  frames_ne_nil := by simp [start]
  depth_lt frame hframe hpending := by
    obtain rfl := List.mem_singleton.mp hframe
    exact depth_lt_ofNode hpending

theorem Sound.turn {g : CallGraph} {maxDepth : Nat} {state after : WalkState}
    (h : state.Sound maxDepth) (hturn : state.turn g maxDepth = .next after) :
    after.Sound maxDepth := by
  obtain ⟨frames, onPath⟩ := state
  cases frames with
  | nil => exact absurd rfl h.frames_ne_nil
  | cons top below =>
      obtain ⟨htop, hbelow⟩ := List.forall_mem_cons.mp h.depth_lt
      cases hpending : top.pending with
      | cons callee rest =>
          have hdepth : top.depth < maxDepth := htop (by simp [hpending])
          simp only [WalkState.turn, hpending, visit] at hturn
          split at hturn
          · contradiction
          · split at hturn
            · cases hturn
              exact ⟨by simp, List.forall_mem_cons.mpr ⟨fun _ => hdepth, hbelow⟩⟩
            · cases hturn
              exact ⟨by simp, List.forall_mem_cons.mpr
                ⟨depth_lt_ofNode, List.forall_mem_cons.mpr ⟨fun _ => hdepth, hbelow⟩⟩⟩
      | nil =>
          simp only [WalkState.turn, hpending, close] at hturn
          cases below with
          | nil => contradiction
          | cons parent outer =>
              obtain ⟨hparent, houter⟩ := List.forall_mem_cons.mp hbelow
              cases hturn
              exact ⟨by simp, List.forall_mem_cons.mpr ⟨hparent, houter⟩⟩

theorem Sound.turn_ne_fault {g : CallGraph} {maxDepth : Nat} {state : WalkState}
    (h : state.Sound maxDepth) (hbound : maxDepth < depthBound) (fault : WalkFault) :
    state.turn g maxDepth ≠ .fault fault := by
  obtain ⟨frames, onPath⟩ := state
  cases frames with
  | nil => exact absurd rfl h.frames_ne_nil
  | cons top below =>
      cases hpending : top.pending with
      | cons callee rest =>
          have hdepth := h.depth_lt top List.mem_cons_self (by simp [hpending])
          simp only [WalkState.turn, hpending, visit, deeper?_of_lt hdepth hbound]
          split <;> simp
      | nil =>
          simp only [WalkState.turn, hpending, close]
          cases below <;> simp

end WalkState

theorem walk_eq_of_next {g : CallGraph} {maxDepth : Nat} {state after : WalkState}
    (h : state.turn g maxDepth = .next after) :
    g.walk maxDepth state = g.walk maxDepth after := by
  rw [walk]
  split <;> simp_all

theorem walk_eq_ok {g : CallGraph} {maxDepth : Nat} {last : WalkState} {tree : CallTree}
    (h : last.turn g maxDepth = .finished tree) : g.walk maxDepth last = .ok tree := by
  rw [walk]
  split <;> simp_all

theorem walk_ne_error {g : CallGraph} {maxDepth : Nat} (hbound : maxDepth < depthBound)
    {state : WalkState} (h : state.Sound maxDepth) (fault : WalkFault) :
    g.walk maxDepth state ≠ .error fault := by
  induction state using walk.induct g maxDepth with
  | case1 state after hturn ih =>
      rw [walk_eq_of_next hturn]
      exact ih (h.turn hturn)
  | case2 state tree hturn => simp [walk_eq_ok hturn]
  | case3 state found hturn => exact absurd hturn (h.turn_ne_fault hbound found)

/-- The tree that the walk from a root ends with. -/
def walkedTree (g : CallGraph) (root : Signature) (maxDepth : UInt64) : CallTree :=
  match hwalk : g.walk maxDepth.toNat (.start g maxDepth.toNat root) with
  | .ok tree => tree
  | .error fault =>
      absurd hwalk (walk_ne_error maxDepth.toNat_lt (WalkState.sound_start g _ root) fault)

/-- The call tree below a signature, if it is a node of the graph. Depths past 64 bits count as the
greatest one. -/
def tree? (g : CallGraph) (root : Signature) (maxDepth : Nat) : Option CallTree :=
  if g.hasNode root then some (g.walkedTree root (.ofNatClamp maxDepth)) else none

end CallTrace.CallGraph
