import WebFonts.Css.Node

/-!
# Visiting the nodes of a stylesheet

Every node is visited once, in document order, and a rule before the nodes in its block. `visits`
lists the visits. `walk` makes them one after another, up to one that fails; it finds the parent of
a node on a stack of the nodes in whose blocks it stands. `keeps_walkIn` says that the stack is the
same behind a block as in front of it, and `walk_eq_forM` that walking is running over the list.
-/

namespace WebFonts.Css

/-- A node, and the rule or at-rule in whose block it stands. -/
structure Visit where
  node : Node
  parent : Option Node
deriving Repr

/-- Whether a node stands directly in the block of an `@font-face` rule. -/
def Visit.insideFontFace (visit : Visit) : Bool :=
  visit.parent.any Node.isFontFace

theorem Visit.insideFontFace_iff {visit : Visit} :
    visit.insideFontFace = true ↔
      ∃ prelude block span, visit.parent = some (.atRule "font-face" prelude block span) := by
  have hfontFace {node : Node} : node.isFontFace = true ↔
      ∃ prelude block span, node = .atRule "font-face" prelude block span := by
    cases node <;> simp [Node.isFontFace]
  rw [Visit.insideFontFace, Option.any_eq_true]
  simp only [hfontFace]
  constructor
  · rintro ⟨parent, hparent, prelude, block, span, rfl⟩
    exact ⟨prelude, block, span, hparent⟩
  · rintro ⟨prelude, block, span, hparent⟩
    exact ⟨_, hparent, prelude, block, span, rfl⟩

/-! ### The list of visits -/

mutual

/-- The visits to a node in a block and to the nodes in its own block. -/
def Node.visits (parent : Option Node) : Node → List Visit
  | .rule selector children span =>
    let node := .rule selector children span
    ⟨node, parent⟩ :: visitsIn (some node) children
  | .atRule name prelude (some children) span =>
    let node := .atRule name prelude (some children) span
    ⟨node, parent⟩ :: visitsIn (some node) children
  | node => [⟨node, parent⟩]

/-- The visits to the nodes of a block. -/
def visitsIn (parent : Option Node) : List Node → List Visit
  | [] => []
  | node :: rest => node.visits parent ++ visitsIn parent rest

end

/-- The visits to all nodes of a stylesheet. -/
def visits (sheet : List Node) : List Visit :=
  visitsIn none sheet

/-! ### Walking -/

section Walk

variable {ε : Type} {m : Type → Type} [Monad m]

/-- A part of a walk. It can fail, and it keeps the nodes in whose blocks it stands, the innermost
first. -/
abbrev Walk (ε : Type) (m : Type → Type) :=
  ExceptT ε (StateT (List Node) m) Unit

namespace Walk

/-- Visits a node in the innermost block. -/
def call (visit : Visit → ExceptT ε m Unit) (node : Node) : Walk ε m :=
  ExceptT.mk fun ancestors => do
    let outcome ← (visit ⟨node, ancestors.head?⟩).run
    return (outcome, ancestors)

/-- Walks in the block of a node. The node is given up behind the block, also if the walk fails
there. -/
def within (node : Node) (inner : Walk ε m) : Walk ε m :=
  ExceptT.mk do
    modify (node :: ·)
    let outcome ← inner.run
    modify List.tail
    return outcome

end Walk

mutual

/-- Visits a node, and then the nodes in its own block. -/
def Node.walk (visit : Visit → ExceptT ε m Unit) : Node → Walk ε m
  | .rule selector children span => do
    let node := .rule selector children span
    Walk.call visit node
    Walk.within node (walkIn visit children)
  | .atRule name prelude (some children) span => do
    let node := .atRule name prelude (some children) span
    Walk.call visit node
    Walk.within node (walkIn visit children)
  | node => Walk.call visit node

/-- Visits the nodes of a block. -/
def walkIn (visit : Visit → ExceptT ε m Unit) : List Node → Walk ε m
  | [] => pure ()
  | node :: rest => do
    node.walk visit
    walkIn visit rest

end

/-- Visits all nodes of a stylesheet. A visit that fails ends the walk. -/
def walk (visit : Visit → ExceptT ε m Unit) (sheet : List Node) : ExceptT ε m Unit :=
  ExceptT.mk (Prod.fst <$> (walkIn visit sheet).run.run [])

/-! ### A walk runs over the list of visits -/

variable [LawfulMonad m]

namespace Walk

variable {ancestors : List Node} {first second : Walk ε m} {outcome outcome' : ExceptT ε m Unit}

/-- A part of a walk has an outcome, and stands in the same blocks behind it as in front of it,
whether it fails or not. -/
def Keeps (ancestors : List Node) (part : Walk ε m) (outcome : ExceptT ε m Unit) : Prop :=
  part.run.run ancestors = (·, ancestors) <$> outcome.run

theorem keeps_call (visit : Visit → ExceptT ε m Unit) (node : Node) :
    Keeps ancestors (call visit node) (visit ⟨node, ancestors.head?⟩) := by
  unfold Keeps call
  rw [map_eq_pure_bind]
  rfl

theorem keeps_pure : Keeps (ε := ε) (m := m) ancestors (pure ()) (pure ()) := by
  simp [Keeps]

/-- What is behind a part that fails is not walked. -/
theorem Keeps.bind (hfirst : Keeps ancestors first outcome)
    (hsecond : Keeps ancestors second outcome') :
    Keeps ancestors (first >>= fun _ => second) (outcome >>= fun _ => outcome') := by
  unfold Keeps at *
  rw [ExceptT.run_bind, ExceptT.run_bind, StateT.run_bind, hfirst, bind_map_left, map_bind]
  refine bind_congr fun result => ?_
  cases result with
  | ok _ => exact hsecond
  | error fault => simp

theorem Keeps.within {node : Node} {inner : Walk ε m}
    (h : Keeps (node :: ancestors) inner outcome) :
    Keeps ancestors (within node inner) outcome := by
  unfold Keeps at *
  simp [Walk.within, h]

end Walk

open Walk (keeps_call keeps_pure)

mutual

theorem Node.keeps_walk (visit : Visit → ExceptT ε m Unit) (ancestors : List Node) (node : Node) :
    (node.walk visit).Keeps ancestors ((node.visits ancestors.head?).forM visit) := by
  match node with
  | .rule selector children span =>
    rw [Node.walk, Node.visits, List.forM_eq_forM, List.forM_cons]
    exact (keeps_call visit _).bind (keeps_walkIn visit _ children).within
  | .atRule name prelude (some children) span =>
    rw [Node.walk, Node.visits, List.forM_eq_forM, List.forM_cons]
    exact (keeps_call visit _).bind (keeps_walkIn visit _ children).within
  | .atRule name prelude none span => simpa [Node.walk, Node.visits] using keeps_call visit _
  | .declaration inner => simpa [Node.walk, Node.visits] using keeps_call visit _
  | .raw text => simpa [Node.walk, Node.visits] using keeps_call visit _

theorem keeps_walkIn (visit : Visit → ExceptT ε m Unit) (ancestors : List Node)
    (nodes : List Node) :
    (walkIn visit nodes).Keeps ancestors ((visitsIn ancestors.head? nodes).forM visit) := by
  match nodes with
  | [] => exact keeps_pure
  | node :: rest =>
    rw [walkIn, visitsIn, List.forM_eq_forM, List.forM_append]
    exact (node.keeps_walk visit ancestors).bind (keeps_walkIn visit ancestors rest)

end

/-- Walking is running over the list of visits. -/
theorem walk_eq_forM (visit : Visit → ExceptT ε m Unit) (sheet : List Node) :
    walk visit sheet = (visits sheet).forM visit := by
  have hkeeps := keeps_walkIn visit [] sheet
  unfold Walk.Keeps at hkeeps
  apply ExceptT.ext
  rw [walk, ExceptT.run_mk, hkeeps, Functor.map_map, visits]
  exact id_map _

end Walk

end WebFonts.Css
