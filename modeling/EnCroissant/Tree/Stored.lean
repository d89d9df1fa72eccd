import EnCroissant.Tree.Comments

/-!
# Reading a stored tree

A tree in the session storage may be of any age.  Reading it fills in the
fields that old trees lack, splits their comments, checks the result against
the schema and clamps the paths to the tree.
-/

namespace EnCroissant

def maxTreeNodes : ℕ := 100000

def maxTreeDepth : ℕ := 512

def maxNodeNags : ℕ := 1024

def maxNag : ℕ := 255

def maxShapeBrushLength : ℕ := 64

def maxNodeShapes : ℕ := 10000

def pgnTextMax : ℕ := 10 * 1024 * 1024

/-- The length of a text in UTF-16 code units. -/
def Text.utf16Length (text : Text) : ℕ :=
  (text.map fun c ↦ if c.val < 0x10000 then 1 else 2).sum

/-! ## What is stored, and what a reader gets -/

/-- A node as it is stored.  A field that the node does not own is `none`; `fields` are those
that are handed on as they are. -/
structure StoredNode (ρ : Type) where
  nags : Option (List ℕ)
  annotations : Option (List Text)
  comment : Text
  commands : Option Text
  shapes : List DrawShape
  fields : ρ
  deriving DecidableEq

structure PersistedNode (ρ : Type) where
  nags : List ℕ
  comment : Text
  commands : Option Text
  shapes : List DrawShape
  fields : ρ
  deriving DecidableEq

def PersistedNode.stored {ρ : Type} (node : PersistedNode ρ) : StoredNode ρ :=
  ⟨some node.nags, none, node.comment, node.commands, node.shapes, node.fields⟩

structure TreeReport where
  inProgress : Bool
  operationId : Option Text
  deriving DecidableEq

/-- A tree as it is stored.  A field of the wrong type is `none`; `appendAttempted` tells one of
the wrong type, `some none`, from one that is absent. -/
structure StoredTree (ρ σ : Type) where
  root : RoseTree (StoredNode ρ)
  start : Option (List ℕ)
  position : Option (List ℕ)
  dirty : Option Bool
  sourceStamp : Option Text
  appendAttempted : Option (Option Bool)
  inProgress : Option Bool
  operationId : Option Text
  practicePath : Option (List ℕ)
  fields : σ

structure PersistedTree (ρ σ : Type) where
  root : RoseTree (PersistedNode ρ)
  start : Option (List ℕ)
  position : List ℕ
  dirty : Bool
  sourceStamp : Option Text
  appendAttempted : Bool
  report : TreeReport
  practicePath : Option (List ℕ)
  fields : σ

variable {ρ σ : Type}

mutual

def storedNodes : RoseTree (PersistedNode ρ) → RoseTree (StoredNode ρ)
  | .node node children => .node node.stored (storedChildren children)

def storedChildren : List (RoseTree (PersistedNode ρ)) → List (RoseTree (StoredNode ρ))
  | [] => []
  | child :: children => storedNodes child :: storedChildren children

end

/-- The state of a reader, stored again. -/
def PersistedTree.stored (state : PersistedTree ρ σ) : StoredTree ρ σ where
  root := storedNodes state.root
  start := state.start
  position := some state.position
  dirty := some state.dirty
  sourceStamp := state.sourceStamp
  appendAttempted := some (some state.appendAttempted)
  inProgress := some state.report.inProgress
  operationId := state.report.operationId
  practicePath := state.practicePath
  fields := state.fields

/-! ## The migration of a node -/

/-- `ANNOTATION_INFO`, for the glyphs of the legacy schema. -/
def annotationNags : List (Text × ℕ) :=
  [([], 0), (['!'], 1), (['!', '!'], 3), (['?'], 2), (['?', '?'], 4), (['!', '?'], 5),
    (['?', '!'], 6), (['+', '-'], 18), (['±'], 16), (['⩲'], 14), (['='], 10), (['∞'], 13),
    (['⩱'], 15), (['∓'], 17), (['-', '+'], 19), (['N'], 146), (['↑', '↑'], 32), (['↑'], 36),
    (['→'], 40), (['⇆'], 132), (['=', '∞'], 44), (['⊕'], 138), (['∆'], 140), (['□'], 7),
    (['⨀'], 22), (['⊗'], 9)]

def isLegacyAnnotations (glyphs : List Text) : Bool :=
  decide (glyphs.length ≤ maxNodeNags) &&
    glyphs.all fun glyph ↦ (annotationNags.lookup glyph).isSome

def glyphNags (glyphs : List Text) : List ℕ :=
  (glyphs.filter (· ≠ [])).filterMap fun glyph ↦ annotationNags.lookup glyph

def migrateNags (node : StoredNode ρ) : StoredNode ρ :=
  match node.nags, node.annotations with
  | none, some glyphs =>
      if isLegacyAnnotations glyphs then
        { node with nags := some (glyphNags glyphs), annotations := none }
      else node
  | _, _ => node

/-- What tells drawings apart. -/
structure DrawingKey where
  orig : Square
  dest : Square
  brush : Option Text
  deriving DecidableEq

def drawingIdentity (shape : DrawShape) : DrawingKey :=
  ⟨shape.orig, shape.dest.getD shape.orig, shape.brush⟩

/-- The drawings for which no match is left. -/
def addedDrawings (counts : DrawingKey → ℕ) : List PgnDrawing → List DrawShape
  | [] => []
  | drawing :: drawings =>
      let key := drawingIdentity (toDrawShape drawing)
      if 0 < counts key then
        addedDrawings (Function.update counts key (counts key - 1)) drawings
      else toDrawShape drawing :: addedDrawings counts drawings

def retainHydratedDrawings (shapes : List DrawShape) (drawings : List PgnDrawing) :
    List DrawShape :=
  shapes ++ addedDrawings (fun key ↦ (shapes.map drawingIdentity).count key) drawings

def migrateComment (syn : CommentSyntax) (node : StoredNode ρ) : StoredNode ρ :=
  match node.commands with
  | none =>
      let split := syn.splitPgnComment node.comment false
      { node with
        comment := split.text
        commands := if split.commands = [] then none else some split.commands
        shapes := retainHydratedDrawings node.shapes split.shapes }
  | some commands =>
      let (text, shapes) := extractPgnDrawings commands
      if shapes = [] then node
      else
        { node with
          commands := some text.trim
          shapes := retainHydratedDrawings node.shapes shapes }

def migrateNode (syn : CommentSyntax) (node : StoredNode ρ) : StoredNode ρ :=
  migrateComment syn (migrateNags node)

mutual

def migrateLegacyNode (syn : CommentSyntax) (depth : ℕ) :
    RoseTree (StoredNode ρ) → RoseTree (StoredNode ρ)
  | .node node children =>
      if maxTreeDepth < depth then .node node children
      else .node (migrateNode syn node) (migrateChildren syn (depth + 1) children)

def migrateChildren (syn : CommentSyntax) (depth : ℕ) :
    List (RoseTree (StoredNode ρ)) → List (RoseTree (StoredNode ρ))
  | [] => []
  | child :: children =>
      migrateLegacyNode syn depth child :: migrateChildren syn depth children

end

/-- A game stamp: 64 lowercase hex digits. -/
def isStamp (text : Text) : Bool :=
  decide (text.length = 64) && text.all fun c ↦ c.isDigit || ('a' ≤ c && c ≤ 'f')

def migrateTreeForStorage (syn : CommentSyntax) (value : StoredTree ρ σ) : StoredTree ρ σ where
  root := migrateLegacyNode syn 0 value.root
  start := value.start
  position := some (value.position.getD [])
  dirty := some (value.dirty.getD false)
  sourceStamp := value.sourceStamp.filter isStamp
  appendAttempted := some (some (match value.appendAttempted with
    | none => false
    | some none => true
    | some (some attempted) => attempted))
  inProgress := some (value.inProgress.getD false)
  operationId := value.operationId
  practicePath := value.practicePath
  fields := value.fields

/-! ## The bounds -/

mutual

/-- The preflight: the number of nodes after a subtree, or `none` where a bound is passed. -/
def visitNode {α : Type} (depth nodes : ℕ) : RoseTree α → Option ℕ
  | .node _ children =>
      if maxTreeDepth < depth ∨ maxTreeNodes < nodes + 1 then none
      else visitChildren (depth + 1) (nodes + 1) children

def visitChildren {α : Type} (depth nodes : ℕ) : List (RoseTree α) → Option ℕ
  | [] => some nodes
  | child :: children =>
      match visitNode depth nodes child with
      | none => none
      | some nodes => visitChildren depth nodes children

end

def isBoundedTreeForStorage {α : Type} (root : RoseTree α) : Bool := (visitNode 0 0 root).isSome

/-! ## The schema -/

def boundedText (text : Text) : Bool := decide (text.utf16Length ≤ pgnTextMax)

def shapeSchema (shape : DrawShape) : Bool :=
  shape.brush.any fun brush ↦ decide (brush.utf16Length ≤ maxShapeBrushLength)

def pathSchema (path : List ℕ) : Bool := decide (path.length ≤ maxTreeDepth)

def nodeSchema (node : StoredNode ρ) : Option (PersistedNode ρ) :=
  match node.nags with
  | none => none
  | some nags =>
      if nags.length ≤ maxNodeNags ∧ (∀ nag ∈ nags, nag ≤ maxNag) ∧
          boundedText node.comment = true ∧ node.commands.all boundedText = true ∧
          node.shapes.length ≤ maxNodeShapes ∧ node.shapes.all shapeSchema = true then
        some ⟨nags, node.comment, node.commands, node.shapes, node.fields⟩
      else none

mutual

def treeNodeSchema : RoseTree (StoredNode ρ) → Option (RoseTree (PersistedNode ρ))
  | .node node children =>
      match nodeSchema node, childrenSchema children with
      | some node, some children =>
          if children.length ≤ maxTreeNodes then some (.node node children) else none
      | _, _ => none

def childrenSchema : List (RoseTree (StoredNode ρ)) → Option (List (RoseTree (PersistedNode ρ)))
  | [] => some []
  | child :: children =>
      match treeNodeSchema child, childrenSchema children with
      | some child, some children => some (child :: children)
      | _, _ => none

end

/-! ## The read -/

/-- A migrated tree that the schema accepts, its paths clamped. -/
def acceptTree (value : StoredTree ρ σ) : Option (PersistedTree ρ σ) :=
  if isBoundedTreeForStorage value.root && value.start.all pathSchema &&
      value.position.all pathSchema && value.practicePath.all pathSchema then
    match treeNodeSchema value.root with
    | none => none
    | some root =>
        some
          { root := root
            start := value.start.filter fun start ↦ decide (root.inRange start = start)
            position := root.inRange (value.position.getD [])
            dirty := value.dirty.getD false
            sourceStamp := value.sourceStamp
            appendAttempted := (value.appendAttempted.bind id).getD false
            report := ⟨value.inProgress.getD false, value.operationId⟩
            practicePath := value.practicePath.map root.inRange
            fields := value.fields }
  else none

def parseTree (syn : CommentSyntax) (value : StoredTree ρ σ) : Option (PersistedTree ρ σ) :=
  acceptTree (migrateTreeForStorage syn value)

end EnCroissant
