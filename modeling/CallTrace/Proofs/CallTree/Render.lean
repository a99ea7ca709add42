import CallTrace.CallTree.Render
import Mathlib.Data.List.Infix

/-!
The text of a tree, line by line. A node is named by its address, the places of the nodes on the way
down to it among their siblings. The addresses in rising order are the nodes with parents before
children, and what stands before a label follows from the address and the tree alone.
-/

namespace CallTrace.CallTree

def at? (tree : CallTree) : List Nat → Option CallTree
  | [] => some tree
  | i :: rest => (tree.children[i]?).bind fun child => child.at? rest

mutual

def addresses : CallTree → List (List Nat)
  | ⟨_, _, _, children, _⟩ => [] :: addressesFrom 0 children

def addressesFrom (i : Nat) : List CallTree → List (List Nat)
  | [] => []
  | child :: rest => child.addresses.map (i :: ·) ++ addressesFrom (i + 1) rest

end

theorem addresses_eq (tree : CallTree) :
    tree.addresses = [] :: addressesFrom 0 tree.children := by
  cases tree
  rw [addresses]

theorem mem_addressesFrom {i : Nat} {trees : List CallTree} {address : List Nat} :
    address ∈ addressesFrom i trees ↔
      ∃ j child rest, trees[j]? = some child ∧ rest ∈ child.addresses ∧
        address = (i + j) :: rest := by
  induction trees generalizing i with
  | nil => simp [addressesFrom]
  | cons first more ih =>
      rw [addressesFrom, List.mem_append, List.mem_map, ih]
      constructor
      · intro h
        rcases h with ⟨rest, hrest, rfl⟩ | ⟨j, child, rest, hchild, hrest, rfl⟩
        · exact ⟨0, first, rest, rfl, hrest, rfl⟩
        · exact ⟨j + 1, child, rest, hchild, hrest, by rw [Nat.add_right_comm, Nat.add_assoc]⟩
      · intro h
        obtain ⟨j, child, rest, hchild, hrest, rfl⟩ := h
        cases j with
        | zero =>
            cases hchild
            exact .inl ⟨rest, hrest, rfl⟩
        | succ j =>
            exact .inr ⟨j, child, rest, hchild, hrest, by rw [Nat.add_right_comm, Nat.add_assoc]⟩

theorem mem_addresses {tree : CallTree} {address : List Nat} :
    address ∈ tree.addresses ↔ (tree.at? address).isSome = true := by
  induction address generalizing tree with
  | nil => simp [addresses_eq, at?]
  | cons i rest ih =>
      rw [addresses_eq, List.mem_cons, mem_addressesFrom, at?, Option.isSome_bind]
      simp only [Option.any_eq_true, ← ih]
      constructor
      · intro h
        rcases h with h | ⟨j, child, rest', hchild, hrest, heq⟩
        · simp at h
        · obtain ⟨rfl, rfl⟩ : i = j ∧ rest = rest' := by simpa using heq
          exact ⟨child, hchild, hrest⟩
      · intro h
        obtain ⟨child, hchild, hrest⟩ := h
        exact .inr ⟨i, child, rest, hchild, hrest, by rw [Nat.zero_add]⟩

mutual

theorem addresses_rising (tree : CallTree) : tree.addresses.Pairwise (· < ·) := by
  cases tree with
  | mk s l c children e =>
      rw [addresses, List.pairwise_cons]
      refine ⟨?_, addressesFrom_rising 0 children⟩
      intro address h
      obtain ⟨j, child, rest, -, -, rfl⟩ := mem_addressesFrom.mp h
      exact List.nil_lt_cons _ _

theorem addressesFrom_rising (i : Nat) (trees : List CallTree) :
    (addressesFrom i trees).Pairwise (· < ·) := by
  cases trees with
  | nil => exact List.Pairwise.nil
  | cons child rest =>
      rw [addressesFrom, List.pairwise_append, List.pairwise_map]
      refine ⟨?_, addressesFrom_rising (i + 1) rest, ?_⟩
      · refine (addresses_rising child).imp ?_
        intro a b hlt
        exact List.cons_lt_cons_iff.mpr (.inr ⟨rfl, hlt⟩)
      · intro a ha b hb
        obtain ⟨below, -, rfl⟩ := List.mem_map.mp ha
        obtain ⟨j, sibling, after, -, -, rfl⟩ := mem_addressesFrom.mp hb
        exact List.cons_lt_cons_iff.mpr (.inl (by omega))

end

/-- The node at an address stands before another child of its parent. -/
def hasNext (tree : CallTree) (address : List Nat) : Bool :=
  match tree.at? address.dropLast, address.getLast? with
  | some parent, some i => decide (i + 1 < parent.children.length)
  | _, _ => false

/-- The addresses on the way down to an address, without the root and itself. -/
def between (address : List Nat) : List (List Nat) :=
  address.inits.tail.dropLast

def marksAt (tree : CallTree) (address : List Nat) : String :=
  String.join ((between address).map fun above => if tree.hasNext above then "│   " else "    ")
    ++ (if tree.hasNext address then "├── " else "└── ")

def markAtRoot (tree : CallTree) : String :=
  tree.entryPoint.elim "" fun entry => "[" ++ entry.descriptor ++ "] "

def lineAt (tree : CallTree) (address : List Nat) : String :=
  match tree.at? address with
  | some node =>
      (if address = [] then tree.markAtRoot else tree.marksAt address)
        ++ (node.signature ++ " [" ++ node.layer.label ++ "]")
        ++ (if node.circular then " (circular)" else "") ++ "\n"
  | none => ""

theorem lineAt_eq {tree node : CallTree} {address : List Nat}
    (hnode : tree.at? address = some node) :
    tree.lineAt address =
      (if address = [] then tree.heading else tree.marksAt address) ++ node.label ++ "\n" := by
  have hheading : tree.heading = tree.markAtRoot := by
    rw [heading, markAtRoot]
    cases tree.entryPoint <;> rfl
  rw [lineAt, hnode, hheading, label]
  simp only [String.append_assoc]

section Child

variable {tree child : CallTree} {i : Nat}

theorem hasNext_single (tree : CallTree) (i : Nat) :
    tree.hasNext [i] = decide (i + 1 < tree.children.length) := rfl

theorem hasNext_cons (hchild : tree.children[i]? = some child) {rest : List Nat}
    (hrest : rest ≠ []) : tree.hasNext (i :: rest) = child.hasNext rest := by
  rw [hasNext, hasNext, List.dropLast_cons_of_ne_nil hrest, at?, hchild,
    List.getLast?_cons_of_ne_nil hrest]
  rfl

theorem between_cons (i : Nat) {rest : List Nat} (hrest : rest ≠ []) :
    between (i :: rest) = [i] :: (between rest).map (i :: ·) := by
  obtain ⟨j, more, rfl⟩ := List.exists_cons_of_ne_nil hrest
  have hinits : more.inits ≠ [] := by cases more <;> simp
  simp [between, List.map_dropLast, List.dropLast_cons_of_ne_nil, hinits]

theorem ne_nil_of_mem_between {address above : List Nat} (h : above ∈ between address) :
    above ≠ [] := by
  cases address with
  | nil => simp [between] at h
  | cons j more =>
      have hmem := List.mem_of_mem_dropLast h
      rw [List.inits_cons, List.tail_cons] at hmem
      obtain ⟨below, -, rfl⟩ := List.mem_map.mp hmem
      exact List.cons_ne_nil j below

theorem marksAt_single (tree : CallTree) (i : Nat) :
    tree.marksAt [i] = branch (!decide (i + 1 < tree.children.length)) := by
  rw [marksAt, hasNext_single, branch]
  cases decide (i + 1 < tree.children.length) <;> rfl

theorem marksAt_cons (hchild : tree.children[i]? = some child) {rest : List Nat}
    (hrest : rest ≠ []) :
    tree.marksAt (i :: rest) =
      guide (!decide (i + 1 < tree.children.length)) ++ child.marksAt rest := by
  have hguides : (between rest).map
        (fun above => if tree.hasNext (i :: above) then "│   " else "    ") =
      (between rest).map fun above => if child.hasNext above then "│   " else "    " := by
    apply List.map_congr_left
    intro above habove
    rw [hasNext_cons hchild (ne_nil_of_mem_between habove)]
  rw [marksAt, between_cons i hrest, List.map_cons, String.join_cons, List.map_map,
    hasNext_cons hchild hrest, hasNext_single, marksAt, guide, ← hguides, String.append_assoc]
  cases decide (i + 1 < tree.children.length) <;> rfl

theorem lineAt_single (hchild : tree.children[i]? = some child) :
    tree.lineAt [i] =
      branch (!decide (i + 1 < tree.children.length)) ++ child.label ++ "\n" := by
  have hnode : tree.at? [i] = some child := by rw [at?, hchild]; rfl
  rw [lineAt_eq hnode, if_neg (List.cons_ne_nil _ _), marksAt_single]

theorem lineAt_cons (hchild : tree.children[i]? = some child) {rest : List Nat}
    (hrest : rest ≠ []) (hnode : (child.at? rest).isSome = true) :
    tree.lineAt (i :: rest) =
      guide (!decide (i + 1 < tree.children.length)) ++ child.lineAt rest := by
  obtain ⟨node, hnode⟩ := Option.isSome_iff_exists.mp hnode
  have hnode' : tree.at? (i :: rest) = some node := by rw [at?, hchild]; exact hnode
  rw [lineAt_eq hnode', lineAt_eq hnode, if_neg (List.cons_ne_nil _ _), if_neg hrest,
    marksAt_cons hchild hrest]
  simp only [String.append_assoc]

end Child

def textBelow (margin : String) (tree : CallTree) : String :=
  String.join ((addressesFrom 0 tree.children).map fun address => margin ++ tree.lineAt address)

def RenderRow.text (row : RenderRow) : String :=
  row.mark ++ row.node.label ++ "\n" ++ row.node.textBelow row.margin

/-- The lines of a child and of all below it, seen from its parent, are those of its row. -/
theorem text_child (margin : String) {tree child : CallTree} {i : Nat} {last : Bool}
    (hchild : tree.children[i]? = some child)
    (hlast : (!decide (i + 1 < tree.children.length)) = last) :
    String.join ((child.addresses.map (i :: ·)).map fun address => margin ++ tree.lineAt address) =
      RenderRow.text ⟨child, margin ++ branch last, margin ++ guide last⟩ := by
  have hbelow : (addressesFrom 0 child.children).map
        (fun address => margin ++ tree.lineAt (i :: address)) =
      (addressesFrom 0 child.children).map
        fun address => margin ++ guide last ++ child.lineAt address := by
    apply List.map_congr_left
    intro address haddress
    have hnode : (child.at? address).isSome = true := by
      rw [← mem_addresses, addresses_eq]
      exact List.mem_cons_of_mem [] haddress
    obtain ⟨j, node, below, -, -, rfl⟩ := mem_addressesFrom.mp haddress
    rw [lineAt_cons hchild (List.cons_ne_nil _ _) hnode, hlast, String.append_assoc]
  rw [RenderRow.text, textBelow, ← hbelow, addresses_eq, List.map_map, List.map_cons,
    String.join_cons, Function.comp_apply, lineAt_single hchild, hlast]
  simp only [String.append_assoc, Function.comp_def]

theorem text_pushRows (margin : String) {tree : CallTree} {before trees : List CallTree}
    (htree : tree.children = before ++ trees) (stack : List RenderRow) :
    String.join ((pushRows margin trees stack).map RenderRow.text) =
      String.join ((addressesFrom before.length trees).map
        fun address => margin ++ tree.lineAt address) ++
        String.join (stack.map RenderRow.text) := by
  induction trees generalizing before with
  | nil => simp [pushRows, addressesFrom]
  | cons child rest ih =>
      have hchild : tree.children[before.length]? = some child := by
        rw [htree, List.getElem?_append_right (Nat.le_refl _), Nat.sub_self]
        rfl
      have hlast : (!decide (before.length + 1 < tree.children.length)) = rest.isEmpty := by
        rw [htree, List.length_append, List.length_cons]
        cases rest <;> simp
      have hsplit : tree.children = (before ++ [child]) ++ rest := by
        rw [htree, List.append_assoc, List.singleton_append]
      have hrest := ih hsplit
      rw [List.length_append, List.length_singleton] at hrest
      rw [pushRows, List.map_cons, String.join_cons, hrest, addressesFrom, List.map_append,
        String.join_append, text_child margin hchild hlast, String.append_assoc]

theorem renderRows_eq (out : String) (stack : List RenderRow) :
    renderRows out stack = out ++ String.join (stack.map RenderRow.text) := by
  induction out, stack using renderRows.induct with
  | case1 out => simp [renderRows]
  | case2 out row stack ih =>
      have hbelow := text_pushRows row.margin (List.nil_append row.node.children).symm stack
      rw [renderRows, ih, hbelow, List.map_cons, String.join_cons, RenderRow.text]
      simp only [textBelow, List.length_nil, String.append_assoc]

/-- The text of a tree has one line for each node, parents before children and siblings in their
order. -/
theorem render_lines (tree : CallTree) :
    tree.addresses.Pairwise (· < ·) ∧
      (∀ address, address ∈ tree.addresses ↔ (tree.at? address).isSome = true) ∧
      tree.render = String.join (tree.addresses.map tree.lineAt) := by
  refine ⟨addresses_rising tree, fun address => mem_addresses, ?_⟩
  have hroot : tree.lineAt [] = tree.heading ++ tree.label ++ "\n" := lineAt_eq rfl
  have hbelow := text_pushRows "" (List.nil_append tree.children).symm []
  rw [render, renderRows_eq, hbelow, addresses_eq, List.map_cons, String.join_cons, hroot]
  simp

example :
    let entry := EntryPoint.ofMethod "GET" "/users" "UserController" "list" "UserController.java"
    let found : CallTree := { signature := "UserRepository.findAll", layer := .repository }
    let list : CallTree := { signature := "UserService.list", layer := .service, children := [found] }
    let tree : CallTree :=
      { signature := "UserController.list", layer := .controller, entryPoint := some entry,
        children := [list, circularLeaf "UserController.list" .controller] }
    tree.addresses.map tree.lineAt =
      ["[GET /users] UserController.list [Controller]\n",
       "├── UserService.list [Service]\n",
       "│   └── UserRepository.findAll [Repository]\n",
       "└── UserController.list [Controller] (circular)\n"] := by
  decide

end CallTrace.CallTree
