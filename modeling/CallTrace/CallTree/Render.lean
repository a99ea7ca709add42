import CallTrace.CallTree

/-!
The text of a call tree, one line a node, with guides for the branches. The nodes to come wait on a
stack, each with the marks for its lines.
-/

namespace CallTrace.CallTree

def label (tree : CallTree) : String :=
  tree.signature ++ " [" ++ tree.layer.label ++ "]" ++ (if tree.circular then " (circular)" else "")

/-- The entry point at the root, shown before the label of the first line. -/
def heading (tree : CallTree) : String :=
  match tree.entryPoint with
  | some entry => "[" ++ entry.descriptor ++ "] "
  | none => ""

def branch (last : Bool) : String :=
  if last then "└── " else "├── "

def guide (last : Bool) : String :=
  if last then "    " else "│   "

/-- A node to be shown, with what stands before its label and before the lines below it. -/
structure RenderRow where
  node : CallTree
  mark : String
  margin : String

/-- Puts siblings on the stack, the first of them on top. -/
def pushRows (margin : String) : List CallTree → List RenderRow → List RenderRow
  | [], stack => stack
  | child :: rest, stack =>
      { node := child
        mark := margin ++ branch rest.isEmpty
        margin := margin ++ guide rest.isEmpty } :: pushRows margin rest stack

/-- The number of nodes that are still to be shown. -/
def rowsSize : List RenderRow → Nat
  | [] => 0
  | row :: stack => row.node.size + rowsSize stack

theorem rowsSize_pushRows (margin : String) (trees : List CallTree) (stack : List RenderRow) :
    rowsSize (pushRows margin trees stack) = sizeList trees + rowsSize stack := by
  induction trees with
  | nil => simp [pushRows, sizeList]
  | cons child rest ih => rw [pushRows, rowsSize, ih, sizeList, Nat.add_assoc]

theorem sizeList_children_lt (tree : CallTree) : sizeList tree.children < tree.size := by
  cases tree with
  | mk s l c children e =>
      rw [size, Nat.add_comm]
      exact Nat.lt_succ_self (sizeList children)

/-- Shows the node on top and puts its children in its place, until the stack is empty. -/
def renderRows (out : String) : List RenderRow → String
  | [] => out
  | row :: stack =>
      renderRows (out ++ (row.mark ++ row.node.label ++ "\n"))
        (pushRows row.margin row.node.children stack)
termination_by stack => rowsSize stack
decreasing_by
  rw [rowsSize_pushRows, rowsSize]
  exact Nat.add_lt_add_right (sizeList_children_lt row.node) (rowsSize stack)

def render (tree : CallTree) : String :=
  renderRows (tree.heading ++ tree.label ++ "\n") (pushRows "" tree.children [])

end CallTrace.CallTree
