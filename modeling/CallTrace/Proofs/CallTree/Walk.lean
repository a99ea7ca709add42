import CallTrace.Analysis
import CallTrace.Proofs.CallTree.Unfold
import Mathlib.Logic.Relation

/-!
The walk with a stack builds the unfolding. From an open node the walk comes, in some number of
turns, to the same stack with all callees of the node taken up; the trees it has collected then are
the ones the recursion gives, and the path is what it was.
-/

namespace CallTrace.CallGraph

def Turns (g : CallGraph) (maxDepth : Nat) (before after : WalkState) : Prop :=
  before.turn g maxDepth = .next after

def Leads (g : CallGraph) (maxDepth : Nat) : WalkState → WalkState → Prop :=
  Relation.ReflTransGen (g.Turns maxDepth)

section Turn

variable (g : CallGraph) {maxDepth : Nat}

theorem turns_leaf (hbound : maxDepth < depthBound) (frame : WalkFrame)
    {callee : Signature} {rest : List Signature} (hpending : frame.pending = callee :: rest)
    (hdepth : frame.depth < maxDepth) (below : List WalkFrame) {path : List Signature}
    (hpath : callee ∈ path) :
    g.Turns maxDepth ⟨frame :: below, path⟩
      ⟨WalkFrame.attach { frame with pending := rest } (.circularLeaf callee (g.layerOf callee))
        :: below, path⟩ := by
  simp [Turns, WalkState.turn, WalkState.visit, hpending, deeper?_of_lt hdepth hbound, hpath]

theorem turns_open (hbound : maxDepth < depthBound) (frame : WalkFrame)
    {callee : Signature} {rest : List Signature} (hpending : frame.pending = callee :: rest)
    (hdepth : frame.depth < maxDepth) (below : List WalkFrame) {path : List Signature}
    (hpath : callee ∉ path) :
    g.Turns maxDepth ⟨frame :: below, path⟩
      ⟨.ofNode g maxDepth (frame.depth + 1) callee :: { frame with pending := rest } :: below,
        callee :: path⟩ := by
  simp [Turns, WalkState.turn, WalkState.visit, hpending, deeper?_of_lt hdepth hbound, hpath]

theorem turns_close {frame : WalkFrame} (hpending : frame.pending = []) (parent : WalkFrame)
    (below : List WalkFrame) {path : List Signature} (hpath : frame.signature ∉ path) :
    g.Turns maxDepth ⟨frame :: parent :: below, frame.signature :: path⟩
      ⟨parent.attach frame.tree :: below, path⟩ := by
  have hfilter : path.filter (fun s => s != frame.signature) = path := by
    rw [List.filter_eq_self]
    intro s hs
    rw [bne_iff_ne]
    rintro rfl
    exact hpath hs
  simp [Turns, WalkState.turn, WalkState.close, hpending, hfilter]

theorem turn_finish {frame : WalkFrame} (hpending : frame.pending = []) (path : List Signature) :
    WalkState.turn g maxDepth ⟨[frame], path⟩ = .finished frame.tree := by
  simp [WalkState.turn, WalkState.close, hpending]

end Turn

/-- The walk takes an open node to its end: all callees are taken up, the tree is the unfolding,
and nothing else has changed. -/
def Completes (g : CallGraph) (maxDepth levels : Nat) : Prop :=
  ∀ (depth : Nat) (s : Signature) (below : List WalkFrame) (path : List Signature),
    depth + levels = maxDepth →
      ∃ frame : WalkFrame,
        frame.pending = [] ∧ frame.signature = s ∧ frame.tree = g.unfold levels path s ∧
          g.Leads maxDepth ⟨.ofNode g maxDepth depth s :: below, path⟩ ⟨frame :: below, path⟩

variable {g : CallGraph} {maxDepth : Nat}

theorem leads_pending (hbound : maxDepth < depthBound) {levels : Nat}
    (hnodes : g.Completes maxDepth levels) (below : List WalkFrame) (path : List Signature)
    (frame : WalkFrame) (hdepth : frame.depth + (levels + 1) = maxDepth) :
    g.Leads maxDepth ⟨frame :: below, path⟩
      ⟨{ frame with
          finished := (frame.pending.map (g.branch levels path)).reverse ++ frame.finished
          pending := [] } :: below, path⟩ := by
  obtain ⟨signature, layer, depth, finished, pending⟩ := frame
  simp only at hdepth ⊢
  -- one callee after the other; `finished` grows by the branch of each
  induction pending generalizing finished with
  | nil => exact .refl
  | cons callee rest ih =>
      have hrest := ih (g.branch levels path callee :: finished)
      have hlt : depth < maxDepth := by omega
      by_cases hpath : callee ∈ path
      · have hturn := turns_leaf g hbound ⟨signature, layer, depth, finished, callee :: rest⟩ rfl
          hlt below hpath
        simp only [branch, hpath, if_true, List.map_cons, List.reverse_cons, List.append_assoc,
          List.singleton_append] at hrest ⊢
        exact .head hturn hrest
      · have hturn := turns_open g hbound ⟨signature, layer, depth, finished, callee :: rest⟩ rfl
          hlt below hpath
        obtain ⟨opened, hpending, hsignature, htree, hleads⟩ :=
          hnodes (depth + 1) callee (⟨signature, layer, depth, finished, rest⟩ :: below)
            (callee :: path) (by omega)
        have hclose : g.Turns maxDepth _ _ :=
          turns_close g hpending ⟨signature, layer, depth, finished, rest⟩ below
            (hsignature ▸ hpath)
        rw [hsignature, htree] at hclose
        simp only [branch, hpath, if_false, List.map_cons, List.reverse_cons, List.append_assoc,
          List.singleton_append] at hrest ⊢
        exact .head hturn (hleads.trans (.head hclose hrest))

theorem completes (hbound : maxDepth < depthBound) (levels : Nat) :
    g.Completes maxDepth levels := by
  induction levels with
  | zero =>
      intro depth s below path hdepth
      have hlast : ¬depth < maxDepth := by omega
      exact ⟨.ofNode g maxDepth depth s, by simp [WalkFrame.ofNode, hlast], rfl, rfl, .refl⟩
  | succ levels ih =>
      intro depth s below path hdepth
      have hinner : depth < maxDepth := by omega
      have hleads := leads_pending hbound ih below path (.ofNode g maxDepth depth s) hdepth
      refine ⟨_, rfl, rfl, ?_, hleads⟩
      simp [WalkFrame.tree, WalkFrame.ofNode, hinner, unfold_succ]

theorem interned_eq {root : Signature} (hroot : g.hasNode root = true) :
    g.interned root = root := by
  obtain ⟨n, hn⟩ := exists_node?_of_hasNode hroot
  simp only [interned, hn]
  exact signature_of_node? hn

theorem start_leads (hbound : maxDepth < depthBound) {root : Signature}
    (hroot : g.hasNode root = true) :
    ∃ last, g.Leads maxDepth (.start g maxDepth root) last ∧
      last.turn g maxDepth = .finished (g.unfold maxDepth [root] root) := by
  obtain ⟨frame, hpending, -, htree, hleads⟩ :=
    completes hbound maxDepth 0 root [] [root] (Nat.zero_add maxDepth)
  refine ⟨⟨[frame], [root]⟩, ?_, ?_⟩
  · rw [WalkState.start, interned_eq hroot]
    exact hleads
  · rw [turn_finish g hpending, htree]

theorem walk_eq_of_leads {before after : WalkState} (h : g.Leads maxDepth before after) :
    g.walk maxDepth before = g.walk maxDepth after := by
  induction h with
  | refl => rfl
  | tail _ hturn ih => rw [ih, walk_eq_of_next hturn]

theorem walkedTree_eq {root : Signature} {depth : UInt64} {tree : CallTree}
    (h : g.walk depth.toNat (.start g depth.toNat root) = .ok tree) :
    g.walkedTree root depth = tree := by
  unfold walkedTree
  split <;> simp_all

theorem tree?_eq_some (hbound : maxDepth < depthBound) {root : Signature}
    (hroot : g.hasNode root = true) :
    g.tree? root maxDepth = some (g.unfold maxDepth [root] root) := by
  obtain ⟨last, hleads, hfinished⟩ := start_leads hbound hroot
  rw [tree?, if_pos hroot, walkedTree_eq]
  rw [UInt64.toNat_ofNatClamp_of_lt hbound, walk_eq_of_leads hleads, walk_eq_ok hfinished]

theorem tree?_eq_none {root : Signature} (hroot : g.hasNode root = false) :
    g.tree? root maxDepth = none := by
  rw [tree?, hroot]
  rfl

theorem trace_eq_error_iff (root : Signature) (entry : Option EntryPoint)
    (hbound : maxDepth < depthBound) :
    g.trace root maxDepth entry = .error (.unknownSignature root) ↔ g.hasNode root = false := by
  cases hroot : g.hasNode root with
  | false => simp [trace, tree?_eq_none hroot]
  | true => simp [trace, tree?_eq_some hbound hroot]

end CallTrace.CallGraph
