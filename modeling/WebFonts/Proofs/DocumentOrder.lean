import WebFonts.Css.Visit

/-!
# Stylesheets are walked in document order

The position of a node is its index in its block, behind the indices of the nodes in whose blocks it
stands. `Visit.StandsAt` tells from the tree alone which node stands at a position, and which node
is its parent. In lexicographic order of the positions a node comes before the nodes in its block,
and these before its right neighbour.

`visits` lists the node at each position once, in this order (`mem_placedIn_iff`,
`pairwise_placedIn`). A walk is a left fold over this list with an early exit
(`walk_eq_foldl`): whatever the visits do to a state and wherever one of them fails.
-/

namespace WebFonts.Css

/-! ### Positions -/

/-- The nodes in the block of a node. -/
def Node.children : Node → List Node
  | .rule _ children _ => children
  | .atRule _ _ (some children) _ => children
  | _ => []

/-- A visit meets the node at a position among the nodes of a block, with the node in whose block
that one stands. -/
inductive Visit.StandsAt : Visit → List Nat → Option Node → List Node → Prop
  | here {nodes : List Node} {parent : Option Node} {index : Nat} {node : Node}
      (h : nodes[index]? = some node) : StandsAt ⟨node, parent⟩ [index] parent nodes
  | inside {nodes : List Node} {parent : Option Node} {index : Nat} {node : Node} {visit : Visit}
      {position : List Nat} (h : nodes[index]? = some node)
      (inner : StandsAt visit position (some node) node.children) :
      StandsAt visit (index :: position) parent nodes

namespace Visit

variable {visit : Visit} {position : List Nat} {parent : Option Node} {node : Node}
  {nodes : List Node}

/-- At the first index stands the first node, and behind it what stands in its block. -/
theorem standsAt_zero_iff :
    visit.StandsAt (0 :: position) parent (node :: nodes) ↔
      (position = [] ∧ visit = ⟨node, parent⟩) ∨
        visit.StandsAt position (some node) node.children := by
  constructor
  · intro h
    cases h with
    | here hnode =>
      cases hnode
      exact .inl ⟨rfl, rfl⟩
    | inside hnode inner =>
      cases hnode
      exact .inr inner
  · rintro (⟨rfl, rfl⟩ | inner)
    · exact .here rfl
    · exact .inside rfl inner

/-- At a later index stands what stands among the other nodes. -/
theorem standsAt_succ_iff {index : Nat} :
    visit.StandsAt ((index + 1) :: position) parent (node :: nodes) ↔
      visit.StandsAt (index :: position) parent nodes := by
  constructor
  · intro h
    cases h with
    | here hnode => exact .here (by simpa using hnode)
    | inside hnode inner => exact .inside (by simpa using hnode) inner
  · intro h
    cases h with
    | here hnode => exact .here (by simpa using hnode)
    | inside hnode inner => exact .inside (by simpa using hnode) inner

theorem not_standsAt_nil : ¬ visit.StandsAt position parent [] := by
  intro h
  cases h with
  | here hnode => simp at hnode
  | inside hnode => simp at hnode

theorem StandsAt.exists_index (h : visit.StandsAt position parent nodes) :
    ∃ index others, position = index :: others := by
  cases h with
  | here => exact ⟨_, _, rfl⟩
  | inside => exact ⟨_, _, rfl⟩

end Visit

/-! ### Visits with their positions -/

mutual

/-- The visits to a node, whose index is given, and to the nodes in its own block, with their
positions. -/
def Node.placed (index : Nat) (parent : Option Node) : Node → List (List Nat × Visit)
  | .rule selector children span =>
    let node := .rule selector children span
    ([index], ⟨node, parent⟩) ::
      (placedIn 0 (some node) children).map (Prod.map (index :: ·) id)
  | .atRule name prelude (some children) span =>
    let node := .atRule name prelude (some children) span
    ([index], ⟨node, parent⟩) ::
      (placedIn 0 (some node) children).map (Prod.map (index :: ·) id)
  | node => [([index], ⟨node, parent⟩)]

/-- The visits to the nodes of a block from a given index on, with their positions. -/
def placedIn (index : Nat) (parent : Option Node) : List Node → List (List Nat × Visit)
  | [] => []
  | node :: rest => node.placed index parent ++ placedIn (index + 1) parent rest

end

mutual

/-- What holds of the nodes in the block of a node can be used for this node and those behind it. -/
theorem Node.children_induction {motive : List Node → Prop} (nil : motive [])
    (cons : ∀ node rest, motive node.children → motive rest → motive (node :: rest))
    (node : Node) : motive node.children := by
  match node with
  | .rule _ children _ => exact nodes_induction nil cons children
  | .atRule _ _ (some children) _ => exact nodes_induction nil cons children
  | .atRule _ _ none _ => exact nil
  | .declaration _ => exact nil
  | .raw _ => exact nil

@[elab_as_elim]
theorem nodes_induction {motive : List Node → Prop} (nil : motive [])
    (cons : ∀ node rest, motive node.children → motive rest → motive (node :: rest))
    (nodes : List Node) : motive nodes := by
  match nodes with
  | [] => exact nil
  | node :: rest =>
    exact cons node rest (node.children_induction nil cons) (nodes_induction nil cons rest)

end

theorem Node.visits_eq (parent : Option Node) (node : Node) :
    node.visits parent = ⟨node, parent⟩ :: visitsIn (some node) node.children := by
  unfold Node.visits Node.children
  split
  · rfl
  · rfl
  · simp_all [visitsIn]

theorem Node.placed_eq (index : Nat) (parent : Option Node) (node : Node) :
    node.placed index parent = ([index], ⟨node, parent⟩) ::
      (placedIn 0 (some node) node.children).map (Prod.map (index :: ·) id) := by
  unfold Node.placed Node.children
  split
  · rfl
  · rfl
  · simp_all [placedIn]

/-- Without the positions, these are the visits. -/
theorem map_snd_placedIn (index : Nat) (parent : Option Node) (nodes : List Node) :
    (placedIn index parent nodes).map (·.2) = visitsIn parent nodes := by
  induction nodes using nodes_induction generalizing index parent with
  | nil => rfl
  | cons node rest inner others =>
    rw [placedIn, visitsIn, List.map_append, others, Node.placed_eq, Node.visits_eq, List.map_cons,
      List.map_map, ← inner 0 (some node)]
    rfl

/-- Each node has a visit at its position, and there are no others. -/
theorem mem_placedIn_iff {first : Nat} {parent : Option Node} {nodes : List Node}
    {position : List Nat} {visit : Visit} :
    (position, visit) ∈ placedIn first parent nodes ↔
      ∃ index others, position = (first + index) :: others ∧
        visit.StandsAt (index :: others) parent nodes := by
  induction nodes using nodes_induction generalizing first parent position with
  | nil =>
    simp [placedIn, Visit.not_standsAt_nil]
  | cons node rest inner others =>
    have hinner {behind : List Nat} : (behind, visit) ∈ placedIn 0 (some node) node.children ↔
        visit.StandsAt behind (some node) node.children := by
      rw [inner]
      constructor
      · rintro ⟨index, behind, rfl, h⟩
        rwa [Nat.zero_add]
      · intro h
        obtain ⟨index, behind, rfl⟩ := h.exists_index
        exact ⟨index, behind, by rw [Nat.zero_add], h⟩
    rw [placedIn, List.mem_append, others, Node.placed_eq, List.mem_cons, List.mem_map]
    constructor
    · rintro ((hhere | ⟨⟨behind, found⟩, hmem, heq⟩) | ⟨index, behind, rfl, h⟩)
      · cases hhere
        exact ⟨0, [], rfl, .here rfl⟩
      · cases heq
        exact ⟨0, behind, rfl, .inside rfl (hinner.mp hmem)⟩
      · exact ⟨index + 1, behind, by rw [Nat.add_assoc, Nat.add_comm 1],
          Visit.standsAt_succ_iff.mpr h⟩
    · rintro ⟨index | index, behind, rfl, h⟩
      · rcases Visit.standsAt_zero_iff.mp h with ⟨rfl, rfl⟩ | h
        · exact .inl (.inl rfl)
        · exact .inl (.inr ⟨(behind, visit), hinner.mpr h, rfl⟩)
      · exact .inr ⟨index, behind, by rw [Nat.add_assoc, Nat.add_comm 1],
          Visit.standsAt_succ_iff.mp h⟩

/-- The positions increase. -/
theorem pairwise_placedIn (first : Nat) (parent : Option Node) (nodes : List Node) :
    (placedIn first parent nodes).Pairwise (·.1 < ·.1) := by
  induction nodes using nodes_induction generalizing first parent with
  | nil => exact .nil
  | cons node rest inner others =>
    rw [placedIn, Node.placed_eq]
    refine List.pairwise_append.mpr ⟨List.pairwise_cons.mpr ⟨?_, ?_⟩, others _ _, ?_⟩
    · intro placed hmem
      obtain ⟨⟨behind, found⟩, hfound, rfl⟩ := List.mem_map.mp hmem
      obtain ⟨index, others, rfl, -⟩ := mem_placedIn_iff.mp hfound
      exact List.cons_lt_cons_iff.mpr (.inr ⟨rfl, List.nil_lt_cons ..⟩)
    · refine List.pairwise_map.mpr ((inner 0 (some node)).imp fun hlt => ?_)
      exact List.cons_lt_cons_iff.mpr (.inr ⟨rfl, hlt⟩)
    · -- what stands at this index or below comes before what stands at a later index
      intro placed hmem later hlater
      obtain ⟨index, behind, heq, -⟩ := mem_placedIn_iff.mp hlater
      have hfirst : ∃ behind, placed.1 = first :: behind := by
        rcases List.mem_cons.mp hmem with rfl | hmem
        · exact ⟨[], rfl⟩
        · obtain ⟨⟨behind, found⟩, -, rfl⟩ := List.mem_map.mp hmem
          exact ⟨behind, rfl⟩
      obtain ⟨before, hbefore⟩ := hfirst
      rw [hbefore, heq]
      exact List.cons_lt_cons_iff.mpr (.inl (by omega))

/-! ### Walking as a fold -/

/-- An outcome and a state behind one more visit. Behind a failure there are no more visits. -/
def callNext {σ ε : Type} (visit : Visit → ExceptT ε (StateM σ) Unit) :
    Except ε Unit × σ → Visit → Except ε Unit × σ
  | (.ok _, state), found => (visit found).run.run state
  | (.error fault, state), _ => (.error fault, state)

theorem foldl_callNext_error {σ ε : Type} (visit : Visit → ExceptT ε (StateM σ) Unit) (fault : ε)
    (state : σ) (listing : List Visit) :
    listing.foldl (callNext visit) (.error fault, state) = (.error fault, state) := by
  induction listing with
  | nil => rfl
  | cons found listing ih => exact ih

theorem run_forM_eq_foldl {σ ε : Type} (visit : Visit → ExceptT ε (StateM σ) Unit)
    (listing : List Visit) (state : σ) :
    Id.run ((listing.forM visit).run.run state) =
      listing.foldl (callNext visit) (.ok (), state) := by
  induction listing generalizing state with
  | nil => rfl
  | cons found listing ih =>
    rw [List.foldl_cons, callNext, List.forM_eq_forM, List.forM_cons, ExceptT.run_bind,
      StateT.run_bind]
    rcases hcall : (visit found).run.run state with ⟨fault | _, after⟩
    · exact (foldl_callNext_error visit fault after listing).symm
    · exact ih after

/-- A walk calls the visitor for every node, at its position, once, with the node in whose block it
stands, in the order of the positions, up to the first call that fails: it is a left fold over the
list of these visits with an early exit. -/
theorem walk_eq_foldl {σ ε : Type} (visit : Visit → ExceptT ε (StateM σ) Unit)
    (sheet : List Node) :
    ∃ placed : List (List Nat × Visit),
      placed.Pairwise (·.1 < ·.1) ∧
      (∀ position found, (position, found) ∈ placed ↔
        Visit.StandsAt found position none sheet) ∧
      (∀ position found, (position, found) ∈ placed → (found.insideFontFace = true ↔
        ∃ prelude block span, found.parent = some (.atRule "font-face" prelude block span))) ∧
      ∀ state, Id.run ((walk visit sheet).run.run state) =
        (placed.map (·.2)).foldl (callNext visit) (.ok (), state) := by
  refine ⟨placedIn 0 none sheet, pairwise_placedIn 0 none sheet, fun position found => ?_,
    fun position found _ => Visit.insideFontFace_iff, fun state => ?_⟩
  · rw [mem_placedIn_iff]
    constructor
    · rintro ⟨index, others, rfl, h⟩
      rwa [Nat.zero_add]
    · intro h
      obtain ⟨index, others, rfl⟩ := h.exists_index
      exact ⟨index, others, by rw [Nat.zero_add], h⟩
  · rw [walk_eq_forM, map_snd_placedIn]
    exact run_forM_eq_foldl visit (visits sheet) state

end WebFonts.Css
