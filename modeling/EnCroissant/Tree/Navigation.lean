import EnCroissant.Tree.Node

/-!
# Navigation in the tree

Walking from one line of the game to the next, jumping to the next move with a
certain annotation, and the order in which the notation prints the moves.
-/

namespace EnCroissant

variable {ι : Type}

/-! ## Lines -/

/-- A line that is being walked: the node it has reached, and the next of the node's children
that begins a line of its own. -/
structure LineFrame (ι : Type) where
  path : List ℕ
  node : TreeNode ι
  next : ℕ

mutual

/-- How often a frame at this node is looked at until it is gone. -/
def frameWork : TreeNode ι → ℕ
  | .node _ [] => 1
  | .node _ (c :: cs) => frameWork c + 1 + framesWork cs

def framesWork : List (TreeNode ι) → ℕ
  | [] => 0
  | c :: cs => frameWork c + 1 + framesWork cs

end

/-- What is left to do for a frame. -/
def LineFrame.work (frame : LineFrame ι) : ℕ :=
  match frame.node.children with
  | [] => 1
  | c :: _ => frameWork c + 1 + framesWork (frame.node.children.drop frame.next)

theorem framesWork_drop {cs : List (TreeNode ι)} {i : ℕ} {c : TreeNode ι} (h : cs[i]? = some c) :
    framesWork (cs.drop i) = frameWork c + 1 + framesWork (cs.drop (i + 1)) := by
  obtain ⟨hi, rfl⟩ := List.getElem?_eq_some_iff.mp h
  rw [List.drop_eq_getElem_cons hi, framesWork]

theorem work_first (path : List ℕ) (node : TreeNode ι) :
    LineFrame.work ⟨path, node, 1⟩ = frameWork node := by
  cases node with
  | node data cs =>
      cases cs with
      | nil => rw [frameWork]; rfl
      | cons c cs =>
          rw [frameWork]
          rfl

theorem work_of_nil {frame : LineFrame ι} (h : frame.node.children = []) : frame.work = 1 := by
  simp only [LineFrame.work, h]

theorem work_of_cons {frame : LineFrame ι} {c : TreeNode ι} {cs : List (TreeNode ι)}
    (h : frame.node.children = c :: cs) :
    frame.work = frameWork c + 1 + framesWork ((c :: cs).drop frame.next) := by
  simp only [LineFrame.work, h]

theorem work_next {frame : LineFrame ι} {c : TreeNode ι}
    (h : frame.node.children[frame.next]? = some c) :
    frame.work = frameWork c + 1 + LineFrame.work { frame with next := frame.next + 1 } := by
  have hdrop := framesWork_drop h
  cases hchildren : frame.node.children with
  | nil => simp [hchildren] at h
  | cons first rest =>
      rw [hchildren] at hdrop
      have hnext : LineFrame.work { frame with next := frame.next + 1 } =
          frameWork first + 1 + framesWork ((first :: rest).drop (frame.next + 1)) :=
        work_of_cons hchildren
      rw [work_of_cons hchildren, hnext, hdrop]
      omega

/-- The lines that the frames still yield; the last one in the code's stack comes first. -/
def lineStartsFrom : List (LineFrame ι) → List (List ℕ)
  | [] => []
  | frame :: stack =>
      match _hnext : frame.node.children[frame.next]? with
      | some child =>
          (frame.path ++ [frame.next]) ::
            lineStartsFrom (⟨frame.path ++ [frame.next], child, 1⟩ ::
              { frame with next := frame.next + 1 } :: stack)
      | none =>
          match _hfirst : frame.node.children with
          | child :: _ => lineStartsFrom (⟨frame.path ++ [0], child, 1⟩ :: stack)
          | [] => lineStartsFrom stack
termination_by stack => (stack.map LineFrame.work).sum
decreasing_by
  · have hwork := work_first (frame.path ++ [frame.next]) child
    rw [List.map_cons, List.map_cons, List.map_cons, List.sum_cons, List.sum_cons, List.sum_cons,
      hwork]
    have hnext := work_next _hnext
    omega
  · have hwork := work_first (frame.path ++ [0]) child
    rw [List.map_cons, List.map_cons, List.sum_cons, List.sum_cons, hwork]
    have hfirst := work_of_cons _hfirst
    omega
  · rw [List.map_cons, List.sum_cons]
    have hleaf := work_of_nil _hfirst
    omega

/-- The starts of all lines. -/
def lineStarts (root : TreeNode ι) : List (List ℕ) :=
  if root.children = [] then [] else [0] :: lineStartsFrom [⟨[], root, 1⟩]

/-- The index that a loop down from `i` stops at. -/
def lastVariation (position : List ℕ) : ℕ → ℕ
  | 0 => 0
  | i + 1 => if position[i + 1]? = some 0 then lastVariation position i else i + 1

/-- The start of the line that holds a position. -/
def lineStart (position : List ℕ) : List ℕ :=
  position.take (lastVariation position (position.length - 1) + 1)

/-- The start behind the current one; `found` says whether the last one was it. -/
def startAfter (current : List ℕ) : Bool → List (List ℕ) → Option (List ℕ)
  | _, [] => none
  | found, start :: starts =>
      if found then some start else startAfter current (decide (start = current)) starts

def nextLineStart (root : TreeNode ι) (position : List ℕ) : Option (List ℕ) :=
  if position = [] then none else startAfter (lineStart position) false (lineStarts root)

def goToBranchEnd (s : TreeState ι) : TreeState ι :=
  { s with position := s.position ++ mainLineEnd (getNodeAtPath s.root s.position) }

def goToBranchEndOrNextLine (s : TreeState ι) : TreeState ι :=
  if (getNodeAtPath s.root s.position).children ≠ [] then goToBranchEnd s
  else if s.practicePath.isSome then s
  else
    match nextLineStart s.root s.position with
    | some next => { s with position := next }
    | none => s

/-! ## The notation -/

/-- A piece of the notation: a text, or the text of the move at a path. -/
inductive PgnPiece where
  | text (text : String)
  | move (path : List ℕ) (isFirst : Bool)
  deriving DecidableEq, Repr

mutual

/-- `writePGN` with variations and without a path, from a node on; the tags and the root's
text are in front of it. -/
def writePGN (path : List ℕ) (root : Bool) : TreeNode ι → List PgnPiece
  | .node _ [] => [.text "\n"]
  | .node _ (c :: cs) =>
      .text "\n" :: .move (path ++ [0]) root :: (writeVariations path 1 cs ++
        writePGN (path ++ [0]) false c)

def writeVariations (path : List ℕ) (i : ℕ) : List (TreeNode ι) → List PgnPiece
  | [] => []
  | v :: vs =>
      .text " (" :: .move (path ++ [i]) true :: .text " " :: (writePGN (path ++ [i]) false v ++
        .text ") " :: writeVariations path (i + 1) vs)

end

/-- The moves that are printed, in their order. -/
def printedMoves (pieces : List PgnPiece) : List (List ℕ) :=
  pieces.filterMap fun piece ↦
    match piece with
    | .move path _ => some path
    | .text _ => none

/-! ## Annotations -/

def nagInfo : List (ℕ × String) :=
  [(1, "!"), (2, "?"), (3, "!!"), (4, "??"), (5, "!?"), (6, "?!"), (7, "□"), (8, "□"), (9, "⊗"),
    (10, "="), (11, "="), (13, "∞"), (14, "⩲"), (15, "⩱"), (16, "±"), (17, "∓"), (18, "+-"),
    (19, "-+"), (22, "⨀"), (23, "⨀"), (32, "↑↑"), (33, "↑↑"), (36, "↑"), (37, "↑"), (40, "→"),
    (41, "→"), (44, "=∞"), (45, "=∞"), (132, "⇆"), (133, "⇆"), (138, "⊕"), (139, "⊕"),
    (140, "∆"), (146, "N")]

def nagGlyph (code : ℕ) : Option String :=
  nagInfo.lookup code

/-- The number of moves from a node to the end of its line. -/
def countMainPly : TreeNode ι → ℕ
  | .node _ [] => 0
  | .node _ (c :: _) => countMainPly c + 1

def isAnnotated ( annotation : String) (color : Color) (node : TreeNode ι) : Bool :=
  (node.label.nags.any fun code ↦ nagGlyph code = some annotation) &&
    decide (node.label.halfMoves.tmod 2 = if color = .white then 1 else 0)

/-- At most `limit` steps along the line, and from the end of a line to the root. -/
def searchAnnotation (root : TreeNode ι) ( annotation : String) (color : Color) :
    (limit : ℕ) → List ℕ → Option (List ℕ)
  | 0, _ => none
  | limit + 1, p =>
      let p := if (getNodeAtPath root p).children = [] then [] else p ++ [0]
      if isAnnotated annotation color (getNodeAtPath root p) then some p
      else searchAnnotation root annotation color limit p

def goToAnnotation (s : TreeState ι) ( annotation : String) (color : Color) : TreeState ι :=
  let searchLimit := countMainPly (getNodeAtPath s.root s.position) + countMainPly s.root + 1
  { s with
    position := ( searchAnnotation s.root annotation color searchLimit s.position).getD
      s.position }

/-- The positions of the main line, as `treeIteratorMainLine` yields them. -/
def treeIteratorMainLine (position : List ℕ) : TreeNode ι → List (List ℕ)
  | .node _ [] => [position]
  | .node _ (c :: _) => position :: treeIteratorMainLine (position ++ [0]) c

end EnCroissant
