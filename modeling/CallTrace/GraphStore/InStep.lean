import CallTrace.GraphStore

namespace CallTrace

namespace GraphStore

variable {st : GraphStore}

/-- The map and the nodes are in step: a signature has an index exactly if the node of that index
carries it. No arc leads out of the nodes. -/
structure InStep (st : GraphStore) : Prop where
  index?_eq_some : ∀ {s i}, st.index? s = some i ↔ st.signature? i = some s
  ends_lt : ∀ arc ∈ st.arcs, arc.source < st.nodes.length ∧ arc.target < st.nodes.length

theorem InStep.empty : ({} : GraphStore).InStep where
  index?_eq_some := by simp [index?, signature?]
  ends_lt := by simp

theorem InStep.lt_length (h : st.InStep) {s : Signature} {i : Nat} (hi : st.index? s = some i) :
    i < st.nodes.length := by
  obtain ⟨n, hn, -⟩ := Option.map_eq_some_iff.mp (h.index?_eq_some.mp hi)
  exact (List.getElem?_eq_some_iff.mp hn).1

theorem signature?_concat (st : GraphStore) (node : GraphNode) (indices : SortedMap Nat) (i : Nat) :
    signature? { st with nodes := st.nodes ++ [node], indices } i =
      if i = st.nodes.length then some node.signature else st.signature? i := by
  rcases Nat.lt_trichotomy i st.nodes.length with hlt | rfl | hgt
  · rw [signature?, List.getElem?_append_left hlt, if_neg (Nat.ne_of_lt hlt), signature?]
  · simp [signature?]
  · rw [signature?, List.getElem?_eq_none (by simp; omega), if_neg (Nat.ne_of_gt hgt), signature?,
      List.getElem?_eq_none (Nat.le_of_lt hgt)]

theorem InStep.insertNode (h : st.InStep) (node : GraphNode) : (st.insertNode node).2.InStep := by
  unfold GraphStore.insertNode
  split
  · exact h
  · rename_i hnew
    refine ⟨?_, ?_⟩
    · intro s i
      rw [index?, SortedMap.get?_insert, signature?_concat]
      by_cases hs : s = node.signature <;> by_cases hi : i = st.nodes.length
      · simp [hs, hi]
      · have hother : st.signature? i ≠ some s := by
          intro hsame
          rw [← h.index?_eq_some, hs, hnew] at hsame
          contradiction
        rw [if_pos hs, if_neg hi]
        exact iff_of_false (fun hlast => hi (Option.some.inj hlast).symm) hother
      · have hlast : st.index? s ≠ some i := fun hat => Nat.ne_of_lt (h.lt_length hat) hi
        rw [if_neg hs, if_pos hi]
        exact iff_of_false hlast fun hsame => hs (Option.some.inj hsame).symm
      · rw [if_neg hs, if_neg hi]
        exact h.index?_eq_some
    · intro arc harc
      obtain ⟨hsource, htarget⟩ := h.ends_lt arc harc
      rw [List.length_append]
      exact ⟨Nat.lt_add_right _ hsource, Nat.lt_add_right _ htarget⟩

theorem index?_insertNode (st : GraphStore) (node : GraphNode) :
    (st.insertNode node).2.index? node.signature = some (st.insertNode node).1 := by
  unfold insertNode
  split
  · assumption
  · simp [index?, SortedMap.get?_insert]

theorem ensureNode_eq (st : GraphStore) (s : Signature) :
    st.ensureNode s = st.insertNode (.unknown s) := by
  unfold ensureNode
  split
  · rename_i i hi
    simp [insertNode, GraphNode.unknown, hi]
  · rfl

theorem index?_insertNode_of_some {s : Signature} {i : Nat} (hi : st.index? s = some i)
    (node : GraphNode) : (st.insertNode node).2.index? s = some i := by
  unfold insertNode
  split
  · exact hi
  · rename_i hnew
    have hne : s ≠ node.signature := by
      rintro rfl
      rw [hi] at hnew
      contradiction
    rw [index?, SortedMap.get?_insert, if_neg hne]
    exact hi

theorem InStep.addEdge (h : st.InStep) (caller callee : Signature) :
    (st.addEdge caller callee).2.InStep := by
  unfold GraphStore.addEdge
  simp only [ensureNode_eq]
  have hends := (h.insertNode (.unknown caller)).insertNode (.unknown callee)
  have hsource := hends.lt_length
    (index?_insertNode_of_some (index?_insertNode st (.unknown caller)) (.unknown callee))
  have htarget := hends.lt_length
    (index?_insertNode (st.insertNode (.unknown caller)).2 (.unknown callee))
  split
  · exact hends
  · refine ⟨hends.index?_eq_some, ?_⟩
    intro arc harc
    rcases List.mem_append.mp harc with hold | hnew
    · exact hends.ends_lt arc hold
    · rw [List.mem_singleton.mp hnew]
      exact ⟨hsource, htarget⟩

theorem signature?_modify (st : GraphStore) {f : GraphNode → GraphNode}
    (hf : ∀ n, (f n).signature = n.signature) (i j : Nat) :
    signature? { st with nodes := st.nodes.modify i f } j = st.signature? j := by
  unfold signature?
  rw [List.getElem?_modify]
  cases st.nodes[j]? with
  | none => rfl
  | some n =>
      by_cases heq : i = j
      · simp [heq, hf]
      · simp [heq]

theorem InStep.setLayer (h : st.InStep) (s : Signature) (layer : Layer) :
    (st.setLayer s layer).InStep := by
  unfold GraphStore.setLayer
  split
  · exact h
  · rename_i i hi
    refine ⟨?_, ?_⟩
    · intro t j
      have hsame := signature?_modify st (f := fun n => { n with layer }) (fun _ => rfl) i j
      rw [hsame]
      exact h.index?_eq_some
    · simpa using h.ends_lt

end GraphStore

end CallTrace
