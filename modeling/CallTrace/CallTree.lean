import CallTrace.EntryPoint
import CallTrace.Layer

/-! Call trees: the calls below a method, unfolded path by path. -/

namespace CallTrace

/-- Depths are counted in 64 bits. -/
def depthBound : Nat := 0x10000000000000000

structure CallTree where
  signature : Signature
  layer : Layer
  /-- The method is already on the path from the root; its calls are not shown again. -/
  circular : Bool := false
  children : List CallTree := []
  /-- The entry point at the root, if the tree belongs to one. -/
  entryPoint : Option EntryPoint := none
  deriving Repr

namespace CallTree

instance : Inhabited CallTree := ⟨⟨"", .unknown, false, [], none⟩⟩

def circularLeaf (signature : Signature) (layer : Layer) : CallTree :=
  { signature, layer, circular := true }

def childSignatures (tree : CallTree) : List Signature :=
  tree.children.map fun child => child.signature

mutual

def decEq : (a b : CallTree) → Decidable (a = b)
  | ⟨s, l, c, ts, e⟩, ⟨s', l', c', ts', e'⟩ =>
      match decEqList ts ts' with
      | isTrue hts =>
          if h : s = s' ∧ l = l' ∧ c = c' ∧ e = e' then
            isTrue (by simp [h, hts])
          else isFalse (by simp only [CallTree.mk.injEq]; grind)
      | isFalse hts => isFalse (by simp [hts])

def decEqList : (as bs : List CallTree) → Decidable (as = bs)
  | [], [] => isTrue rfl
  | [], _ :: _ => isFalse (by simp)
  | _ :: _, [] => isFalse (by simp)
  | a :: as, b :: bs =>
      match decEq a b, decEqList as bs with
      | isTrue ha, isTrue has => isTrue (by simp [ha, has])
      | isFalse ha, _ => isFalse (by simp [ha])
      | _, isFalse has => isFalse (by simp [has])

end

instance : DecidableEq CallTree := decEq

mutual

def size : CallTree → Nat
  | ⟨_, _, _, children, _⟩ => 1 + sizeList children

def sizeList : List CallTree → Nat
  | [] => 0
  | child :: rest => child.size + sizeList rest

end

mutual

/-- The number of edges on a longest path down. -/
def depth : CallTree → Nat
  | ⟨_, _, _, children, _⟩ => depthList children

/-- The same, counted from the parent of the trees. -/
def depthList : List CallTree → Nat
  | [] => 0
  | child :: rest => max (child.depth + 1) (depthList rest)

end

mutual

/-- Every subtree with its distance from the top, parents before children. -/
def preorder (level : Nat) : CallTree → List (Nat × CallTree)
  | ⟨s, l, c, children, e⟩ => (level, ⟨s, l, c, children, e⟩) :: preorderList (level + 1) children

def preorderList (level : Nat) : List CallTree → List (Nat × CallTree)
  | [] => []
  | child :: rest => child.preorder level ++ preorderList level rest

end

mutual

/-- The first subtree with a signature, parents before children. -/
def find? (s : Signature) : CallTree → Option CallTree
  | ⟨t, l, c, children, e⟩ =>
      if t == s then some ⟨t, l, c, children, e⟩ else findList? s children

def findList? (s : Signature) : List CallTree → Option CallTree
  | [] => none
  | child :: rest => (child.find? s).or (findList? s rest)

end

/-- All signatures of a tree, parents before children. -/
def signatures (tree : CallTree) : List Signature :=
  (tree.preorder 0).map fun row => row.2.signature

end CallTree

end CallTrace
