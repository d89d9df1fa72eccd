import EnCroissant.Library.Walks
import EnCroissant.Tree.Navigation
import EnCroissant.Tree.MainLine

/-!
# The lines of a game

A line starts with the first move of the game or with a variation and goes on
along first children.  The walk over the lines yields their starts as the
notation prints them, and going from line to line reaches every leaf.
-/

namespace EnCroissant

open RoseTree

variable {ι : Type}

/-! ## The starts by recursion on the tree -/

mutual

/-- The starts of the lines that leave a node or its continuation. -/
def linesBelow (path : List ℕ) : TreeNode ι → List (List ℕ)
  | .node _ [] => []
  | .node _ (c :: cs) => variationLines path 1 cs ++ linesBelow (path ++ [0]) c

def variationLines (path : List ℕ) (i : ℕ) : List (TreeNode ι) → List (List ℕ)
  | [] => []
  | v :: vs => (path ++ [i]) :: (linesBelow (path ++ [i]) v ++ variationLines path (i + 1) vs)

end

def LineFrame.lines (frame : LineFrame ι) : List (List ℕ) :=
  match frame.node.children with
  | [] => []
  | c :: cs =>
      variationLines frame.path frame.next ((c :: cs).drop frame.next) ++
        linesBelow (frame.path ++ [0]) c

theorem lines_of_nil {frame : LineFrame ι} (h : frame.node.children = []) : frame.lines = [] := by
  simp only [LineFrame.lines, h]

theorem lines_of_cons {frame : LineFrame ι} {c : TreeNode ι} {cs : List (TreeNode ι)}
    (h : frame.node.children = c :: cs) :
    frame.lines = variationLines frame.path frame.next ((c :: cs).drop frame.next) ++
      linesBelow (frame.path ++ [0]) c := by
  simp only [LineFrame.lines, h]

theorem lines_first (path : List ℕ) (node : TreeNode ι) :
    LineFrame.lines ⟨path, node, 1⟩ = linesBelow path node := by
  cases node with
  | node data cs =>
      cases cs with
      | nil => rw [lines_of_nil rfl, linesBelow]
      | cons c cs => rw [lines_of_cons rfl, linesBelow, List.drop_one, List.tail_cons]

theorem lines_next {frame : LineFrame ι} {child : TreeNode ι}
    (h : frame.node.children[frame.next]? = some child) :
    frame.lines = (frame.path ++ [frame.next]) ::
      (linesBelow (frame.path ++ [frame.next]) child ++
        LineFrame.lines { frame with next := frame.next + 1 }) := by
  cases hchildren : frame.node.children with
  | nil => simp [hchildren] at h
  | cons c cs =>
      have hnext : LineFrame.lines { frame with next := frame.next + 1 } =
          variationLines frame.path (frame.next + 1) ((c :: cs).drop (frame.next + 1)) ++
            linesBelow (frame.path ++ [0]) c :=
        lines_of_cons hchildren
      rw [hchildren] at h
      obtain ⟨hlt, hget⟩ := List.getElem?_eq_some_iff.mp h
      rw [lines_of_cons hchildren, hnext, List.drop_eq_getElem_cons hlt, hget, variationLines,
        List.cons_append, List.append_assoc]

/-- The walk yields the lines of its frames, the top one first. -/
theorem lineStartsFrom_eq (stack : List (LineFrame ι)) :
    lineStartsFrom stack = stack.flatMap LineFrame.lines := by
  fun_induction lineStartsFrom stack with
  | case1 => rfl
  | case2 frame stack child hnext ih =>
      rw [ih, List.flatMap_cons, List.flatMap_cons, List.flatMap_cons, lines_first,
        lines_next hnext, List.cons_append, List.append_assoc]
  | case3 frame stack hnext child rest hchildren ih =>
      rw [ih, List.flatMap_cons, List.flatMap_cons, lines_first, lines_of_cons hchildren]
      rw [hchildren, List.getElem?_eq_none_iff] at hnext
      rw [List.drop_eq_nil_of_le hnext, variationLines, List.nil_append]
  | case4 frame stack hnext hchildren ih =>
      rw [ih, List.flatMap_cons, lines_of_nil hchildren, List.nil_append]

theorem lineStarts_eq (root : TreeNode ι) :
    lineStarts root = if root.children = [] then [] else [0] :: linesBelow [] root := by
  rw [lineStarts, lineStartsFrom_eq, List.flatMap_singleton, lines_first]

/-! ## The printed moves -/

/-- The first move of the game, or a variation. -/
def isLineStart (path : List ℕ) : Bool :=
  decide (path = [0]) || path.getLast?.any (· ≠ 0)

@[simp] theorem printedMoves_nil : printedMoves [] = [] := rfl

@[simp] theorem printedMoves_text (text : String) (pieces : List PgnPiece) :
    printedMoves (.text text :: pieces) = printedMoves pieces := rfl

@[simp] theorem printedMoves_move (path : List ℕ) (isFirst : Bool) (pieces : List PgnPiece) :
    printedMoves (.move path isFirst :: pieces) = path :: printedMoves pieces := rfl

@[simp] theorem printedMoves_append (xs ys : List PgnPiece) :
    printedMoves (xs ++ ys) = printedMoves xs ++ printedMoves ys :=
  List.filterMap_append

theorem isLineStart_concat {path : List ℕ} (hpath : path ≠ []) (i : ℕ) :
    isLineStart (path ++ [i]) = decide (i ≠ 0) := by
  have hlong : path ++ [i] ≠ [0] := by
    intro h
    rcases List.append_eq_singleton_iff.mp h with ⟨hnil, -⟩ | ⟨-, hnil⟩
    · exact hpath hnil
    · cases hnil
  rw [isLineStart, decide_eq_false hlong, Bool.false_or, List.getLast?_concat, Option.any_some]

theorem isLineStart_variation (path : List ℕ) {i : ℕ} (hi : i ≠ 0) :
    isLineStart (path ++ [i]) = true := by
  rw [isLineStart, List.getLast?_concat, Option.any_some, decide_eq_true hi, Bool.or_true]

mutual

theorem filter_printedMoves_writePGN (path : List ℕ) (root : Bool) :
    ∀ t : TreeNode ι, (printedMoves (writePGN path root t)).filter isLineStart =
      (if path = [] ∧ t.children ≠ [] then [[0]] else []) ++ linesBelow path t
  | .node data [] => by
      rw [writePGN, linesBelow]
      simp
  | .node data (c :: cs) => by
      have hvariations := filter_printedMoves_writeVariations path 0 cs
      have hbelow := filter_printedMoves_writePGN (path ++ [0]) false c
      rw [Nat.zero_add] at hvariations
      rw [if_neg (fun h ↦ by simp at h), List.nil_append] at hbelow
      rw [writePGN, linesBelow, printedMoves_text, printedMoves_move, printedMoves_append,
        List.filter_cons, List.filter_append, hvariations, hbelow, children_node]
      by_cases hpath : path = []
      · subst hpath
        simp [isLineStart]
      · rw [isLineStart_concat hpath]
        simp [hpath]

theorem filter_printedMoves_writeVariations (path : List ℕ) (i : ℕ) :
    ∀ vs : List (TreeNode ι), (printedMoves (writeVariations path (i + 1) vs)).filter isLineStart =
      variationLines path (i + 1) vs
  | [] => by
      rw [writeVariations, variationLines]
      rfl
  | v :: vs => by
      have hbelow := filter_printedMoves_writePGN (path ++ [i + 1]) false v
      have hvariations := filter_printedMoves_writeVariations path (i + 1) vs
      rw [if_neg (fun h ↦ by simp at h), List.nil_append] at hbelow
      rw [writeVariations, variationLines, printedMoves_text, printedMoves_move,
        printedMoves_text, printedMoves_append, printedMoves_text, List.filter_cons,
        isLineStart_variation path (Nat.succ_ne_zero i), if_pos rfl, List.filter_append, hbelow,
        hvariations]

end

/-- The walk yields the starts as the notation prints them. -/
theorem lineStarts_eq_printed (root : TreeNode ι) :
    lineStarts root = (printedMoves (writePGN [] true root)).filter isLineStart := by
  rw [lineStarts_eq, filter_printedMoves_writePGN]
  by_cases hleaf : root.children = []
  · cases root with
    | node data cs =>
        rw [children_node] at hleaf
        subst hleaf
        simp [linesBelow]
  · simp [hleaf]

/-! ## Every move is printed once -/

mutual

theorem mem_printedMoves_writePGN (path : List ℕ) (root : Bool) :
    ∀ (t : TreeNode ι) {p : List ℕ}, p ∈ printedMoves (writePGN path root t) ↔
      ∃ i q, p = path ++ i :: q ∧ (t.nodeAt (i :: q)).isSome
  | .node data [], p => by
      rw [writePGN]
      simp [nodeAt_cons]
  | .node data (c :: cs), p => by
      rw [writePGN, printedMoves_text, printedMoves_move, printedMoves_append, List.mem_cons,
        List.mem_append, mem_printedMoves_writeVariations path 1 cs,
        mem_printedMoves_writePGN (path ++ [0]) false c]
      simp only [nodeAt_cons, children_node]
      constructor
      · rintro (rfl | ⟨j, q, rfl, hq⟩ | ⟨i, q, rfl, hq⟩)
        · exact ⟨0, [], rfl, by rw [List.getElem?_cons_zero, Option.bind_some, nodeAt_nil]; rfl⟩
        · refine ⟨1 + j, q, rfl, ?_⟩
          rw [Nat.add_comm, List.getElem?_cons_succ]
          exact hq
        · refine ⟨0, i :: q, by rw [List.append_assoc]; rfl, ?_⟩
          rw [List.getElem?_cons_zero, Option.bind_some, nodeAt_cons]
          exact hq
      · rintro ⟨i, q, rfl, hq⟩
        cases i with
        | zero =>
            cases q with
            | nil => exact .inl rfl
            | cons i q =>
                rw [List.getElem?_cons_zero, Option.bind_some, nodeAt_cons] at hq
                exact .inr (.inr ⟨i, q, by rw [List.append_assoc]; rfl, hq⟩)
        | succ j =>
            rw [List.getElem?_cons_succ] at hq
            exact .inr (.inl ⟨j, q, by rw [Nat.add_comm], hq⟩)

theorem mem_printedMoves_writeVariations (path : List ℕ) (i : ℕ) :
    ∀ (vs : List (TreeNode ι)) {p : List ℕ}, p ∈ printedMoves (writeVariations path i vs) ↔
      ∃ j q, p = path ++ (i + j) :: q ∧ (vs[j]?.bind fun v ↦ v.nodeAt q).isSome
  | [], p => by
      rw [writeVariations]
      simp
  | v :: vs, p => by
      rw [writeVariations, printedMoves_text, printedMoves_move, printedMoves_text,
        printedMoves_append, printedMoves_text, List.mem_cons, List.mem_append,
        mem_printedMoves_writePGN (path ++ [i]) false v,
        mem_printedMoves_writeVariations path (i + 1) vs]
      constructor
      · rintro (rfl | ⟨k, q, rfl, hq⟩ | ⟨j, q, rfl, hq⟩)
        · exact ⟨0, [], rfl, by rw [List.getElem?_cons_zero, Option.bind_some, nodeAt_nil]; rfl⟩
        · exact ⟨0, k :: q, by rw [List.append_assoc]; rfl, hq⟩
        · refine ⟨j + 1, q, by rw [Nat.add_right_comm, Nat.add_assoc], ?_⟩
          rw [List.getElem?_cons_succ]
          exact hq
      · rintro ⟨j, q, rfl, hq⟩
        cases j with
        | zero =>
            cases q with
            | nil => exact .inl rfl
            | cons k q => exact .inr (.inl ⟨k, q, by rw [List.append_assoc]; rfl, hq⟩)
        | succ j =>
            rw [List.getElem?_cons_succ] at hq
            exact .inr (.inr ⟨j, q, by rw [Nat.add_right_comm, Nat.add_assoc], hq⟩)

end

mutual

theorem nodup_printedMoves_writePGN (path : List ℕ) (root : Bool) :
    ∀ t : TreeNode ι, (printedMoves (writePGN path root t)).Nodup
  | .node data [] => by
      rw [writePGN]
      exact List.nodup_nil
  | .node data (c :: cs) => by
      have hvariations := nodup_printedMoves_writeVariations path 1 cs
      have hbelow := nodup_printedMoves_writePGN (path ++ [0]) false c
      rw [writePGN, printedMoves_text, printedMoves_move, printedMoves_append, List.nodup_cons,
        List.mem_append, mem_printedMoves_writeVariations, mem_printedMoves_writePGN]
      refine ⟨?_, hvariations.append hbelow ?_⟩
      · rintro (⟨j, q, heq, -⟩ | ⟨i, q, heq, -⟩)
        · have hcons := List.append_cancel_left heq
          simp at hcons
          omega
        · rw [List.append_assoc] at heq
          have hcons := List.append_cancel_left heq
          simp at hcons
      · intro p hp hp'
        obtain ⟨j, q, rfl, -⟩ := (mem_printedMoves_writeVariations path 1 cs).mp hp
        obtain ⟨i, r, heq, -⟩ := (mem_printedMoves_writePGN (path ++ [0]) false c).mp hp'
        rw [List.append_assoc] at heq
        have hcons := List.append_cancel_left heq
        simp at hcons

theorem nodup_printedMoves_writeVariations (path : List ℕ) (i : ℕ) :
    ∀ vs : List (TreeNode ι), (printedMoves (writeVariations path i vs)).Nodup
  | [] => by
      rw [writeVariations]
      exact List.nodup_nil
  | v :: vs => by
      have hbelow := nodup_printedMoves_writePGN (path ++ [i]) false v
      have hvariations := nodup_printedMoves_writeVariations path (i + 1) vs
      rw [writeVariations, printedMoves_text, printedMoves_move, printedMoves_text,
        printedMoves_append, printedMoves_text, List.nodup_cons, List.mem_append,
        mem_printedMoves_writePGN, mem_printedMoves_writeVariations]
      refine ⟨?_, hbelow.append hvariations ?_⟩
      · rintro (⟨k, q, heq, -⟩ | ⟨j, q, heq, -⟩)
        · rw [List.append_assoc] at heq
          have hcons := List.append_cancel_left heq
          simp at hcons
        · have hcons := List.append_cancel_left heq
          simp at hcons
          omega
      · intro p hp hp'
        obtain ⟨k, q, rfl, -⟩ := (mem_printedMoves_writePGN (path ++ [i]) false v).mp hp
        obtain ⟨j, r, heq, -⟩ := (mem_printedMoves_writeVariations path (i + 1) vs).mp hp'
        rw [List.append_assoc] at heq
        have hcons := List.append_cancel_left heq
        simp at hcons
        omega

end

theorem nodup_lineStarts (root : TreeNode ι) : (lineStarts root).Nodup := by
  rw [lineStarts_eq_printed]
  exact (nodup_printedMoves_writePGN [] true root).filter _

/-- A line start is a place in the tree that a line can start at. -/
theorem mem_lineStarts {root : TreeNode ι} {p : List ℕ} :
    p ∈ lineStarts root ↔ (root.nodeAt p).isSome ∧ isLineStart p = true := by
  rw [lineStarts_eq_printed, List.mem_filter, mem_printedMoves_writePGN]
  refine and_congr_left fun hstart ↦ ?_
  constructor
  · rintro ⟨i, q, rfl, hq⟩
    exact hq
  · intro hp
    cases p with
    | nil => cases hstart
    | cons i q => exact ⟨i, q, rfl, hp⟩

/-! ## The line of a position -/

theorem lastVariation_append {start : List ℕ} (hstart : isLineStart start = true) {n : ℕ}
    (k : ℕ) (hk : k ≤ n) :
    lastVariation (start ++ List.replicate n 0) (start.length - 1 + k) = start.length - 1 := by
  induction k with
  | zero =>
      rw [Nat.add_zero]
      cases hlen : start.length - 1 with
      | zero => rfl
      | succ i =>
          have hlt : i + 1 < start.length := by omega
          have hlast : start.getLast? = start[i + 1]? := by
            rw [List.getLast?_eq_getElem?, hlen]
          have hne : start[i + 1]? ≠ some 0 := by
            intro hzero
            rw [isLineStart, hlast, hzero, Option.any_some] at hstart
            have hone : start = [0] := by simpa using hstart
            rw [hone] at hlt
            simp at hlt
          rw [lastVariation, List.getElem?_append_left hlt, if_neg hne]
  | succ k ih =>
      have hpos : start ≠ [] := by
        rintro rfl
        cases hstart
      have hlen := List.length_pos_iff.mpr hpos
      have hzero : (start ++ List.replicate n 0)[start.length - 1 + k + 1]? = some 0 := by
        rw [List.getElem?_append_right (by omega), List.getElem?_replicate, if_pos (by omega)]
      rw [← Nat.add_assoc, lastVariation, if_pos hzero]
      exact ih (by omega)

/-- Every move along first children stays in its line. -/
theorem lineStart_append {start : List ℕ} (hstart : isLineStart start = true) (n : ℕ) :
    lineStart (start ++ List.replicate n 0) = start := by
  have hpos : start ≠ [] := by
    rintro rfl
    cases hstart
  have hlen := List.length_pos_iff.mpr hpos
  have hlast := lastVariation_append hstart (n := n) n le_rfl
  have hindex : (start ++ List.replicate n 0).length - 1 = start.length - 1 + n := by
    rw [List.length_append, List.length_replicate]
    omega
  rw [lineStart, hindex, hlast, Nat.sub_add_cancel hlen, List.take_left]

theorem exists_lineStart {p : List ℕ} (hp : p ≠ []) :
    ∃ start n, isLineStart start = true ∧ p = start ++ List.replicate n 0 := by
  induction p using List.reverseRecOn with
  | nil => exact absurd rfl hp
  | append_singleton p i ih =>
      by_cases hi : i = 0
      · subst hi
        by_cases hnil : p = []
        · exact ⟨[0], 0, rfl, by rw [hnil]; rfl⟩
        · obtain ⟨start, n, hstart, heq⟩ := ih hnil
          refine ⟨start, n + 1, hstart, ?_⟩
          rw [List.replicate_succ', ← List.append_assoc, ← heq]
      · exact ⟨p ++ [i], 0, isLineStart_variation p hi, by simp⟩

theorem startAfter_append {current : List ℕ} {before after : List (List ℕ)}
    (hcurrent : current ∉ before) :
    startAfter current false (before ++ current :: after) = after.head? := by
  induction before with
  | nil =>
      rw [List.nil_append, startAfter, if_neg Bool.false_ne_true, decide_eq_true rfl]
      cases after with
      | nil => rfl
      | cons next after => rw [startAfter, if_pos rfl, List.head?_cons]
  | cons start before ih =>
      rw [List.mem_cons, not_or] at hcurrent
      rw [List.cons_append, startAfter, if_neg Bool.false_ne_true,
        decide_eq_false (fun h ↦ hcurrent.1 h.symm)]
      exact ih hcurrent.2

/-- The next start of a position is the one behind the start of its line. -/
theorem nextLineStart_eq {root : TreeNode ι} {p start : List ℕ} {n : ℕ}
    {before after : List (List ℕ)} (hp : p = start ++ List.replicate n 0)
    (hstarts : lineStarts root = before ++ start :: after) :
    nextLineStart root p = after.head? := by
  have hmem : start ∈ lineStarts root := by simp [hstarts]
  have hstart := (mem_lineStarts.mp hmem).2
  have hne : p ≠ [] := by
    rintro rfl
    rw [List.nil_eq_append_iff] at hp
    rw [hp.1] at hstart
    cases hstart
  have hnodup := nodup_lineStarts root
  rw [hstarts, List.nodup_append] at hnodup
  have hnot : start ∉ before := fun hbefore ↦
    hnodup.2.2 start hbefore start List.mem_cons_self rfl
  rw [nextLineStart, if_neg hne, hp, lineStart_append hstart, hstarts, startAfter_append hnot]

/-! ## Going from line to line -/

/-- The last move of the line that goes on at a position. -/
def lineEnd (root : TreeNode ι) (p : List ℕ) : List ℕ :=
  p ++ mainLineEnd (getNodeAtPath root p)

/-- The position after a step outside practice. -/
def advance (root : TreeNode ι) (p : List ℕ) : List ℕ :=
  if (getNodeAtPath root p).children ≠ [] then lineEnd root p
  else (nextLineStart root p).getD p

/-- The stops on a line that is entered at a position. -/
def lineStops (root : TreeNode ι) (p : List ℕ) : List (List ℕ) :=
  if (getNodeAtPath root p).children = [] then [p] else [p, lineEnd root p]

theorem goToBranchEndOrNextLine_eq {s : TreeState ι} (hpractice : s.practicePath = none) :
    goToBranchEndOrNextLine s = { s with position := advance s.root s.position } := by
  obtain ⟨root, headers, position, dirty, practicePath⟩ := s
  obtain rfl : practicePath = none := hpractice
  rw [goToBranchEndOrNextLine, advance]
  by_cases hleaf : (getNodeAtPath root position).children = []
  · rw [if_neg (not_not.mpr hleaf), if_neg (not_not.mpr hleaf)]
    simp only [Option.isSome_none, Bool.false_eq_true, if_false]
    cases nextLineStart root position <;> rfl
  · rw [if_pos hleaf, if_pos hleaf]
    rfl

theorem iterate_goToBranchEndOrNextLine {s : TreeState ι} (hpractice : s.practicePath = none)
    (n : ℕ) :
    goToBranchEndOrNextLine^[n] s = { s with position := (advance s.root)^[n] s.position } := by
  induction n with
  | zero => rfl
  | succ n ih =>
      rw [Function.iterate_succ_apply', Function.iterate_succ_apply', ih]
      exact goToBranchEndOrNextLine_eq hpractice

theorem mainLineEnd_eq_replicate (t : TreeNode ι) : ∃ n, mainLineEnd t = List.replicate n 0 := by
  induction t using mainLineEnd.induct with
  | case1 data => exact ⟨0, rfl⟩
  | case2 data c cs ih =>
      obtain ⟨n, hn⟩ := ih
      exact ⟨n + 1, by rw [mainLineEnd, hn, List.replicate_succ]⟩

theorem mainLineEnd_eq_nil {t : TreeNode ι} : mainLineEnd t = [] ↔ t.children = [] := by
  cases t with
  | node data cs =>
      cases cs with
      | nil => simp [mainLineEnd]
      | cons c cs => simp [mainLineEnd]

theorem lineEnd_eq_replicate (root : TreeNode ι) (p : List ℕ) :
    ∃ n, lineEnd root p = p ++ List.replicate n 0 := by
  obtain ⟨n, hn⟩ := mainLineEnd_eq_replicate (getNodeAtPath root p)
  exact ⟨n, by rw [lineEnd, hn]⟩

theorem lineEnd_of_leaf {root : TreeNode ι} {p : List ℕ}
    (hleaf : (getNodeAtPath root p).children = []) :
    lineEnd root p = p := by
  rw [lineEnd, mainLineEnd_eq_nil.mpr hleaf, List.append_nil]

theorem nodeAt_lineEnd {root : TreeNode ι} {p : List ℕ} (hp : (root.nodeAt p).isSome) :
    ∃ u, root.nodeAt (lineEnd root p) = some u ∧ u.children = [] := by
  obtain ⟨v, hv⟩ := Option.isSome_iff_exists.mp hp
  obtain ⟨u, hu, hleaf⟩ := nodeAt_mainLineEnd v
  refine ⟨u, ?_, hleaf⟩
  rw [lineEnd, nodeAt_append, hv, Option.bind_some, getNodeAtPath, deepest_of_nodeAt hv, hu]

/-- A line has one end. -/
theorem leaf_unique {root u v : TreeNode ι} {p : List ℕ} {m n : ℕ}
    (hu : root.nodeAt (p ++ List.replicate m 0) = some u) (hu' : u.children = [])
    (hv : root.nodeAt (p ++ List.replicate n 0) = some v) (hv' : v.children = []) :
    m = n := by
  wlog hlt : m < n generalizing m n u v
  · rcases Nat.lt_or_ge n m with hlt' | hge
    · exact (this hv hv' hu hu' hlt').symm
    · omega
  · obtain ⟨k, rfl⟩ := Nat.exists_eq_add_of_lt hlt
    have hsplit : p ++ List.replicate (m + k + 1) 0 =
        (p ++ List.replicate m 0) ++ 0 :: List.replicate k 0 := by
      rw [List.append_assoc, ← List.replicate_succ, List.replicate_append_replicate, Nat.add_assoc]
    rw [hsplit, nodeAt_append, hu, Option.bind_some, nodeAt_cons, hu'] at hv
    cases hv

theorem advance_leaf {root u : TreeNode ι} {p start : List ℕ} {n : ℕ}
    {before after : List (List ℕ)} (hu : root.nodeAt p = some u) (hleaf : u.children = [])
    (hp : p = start ++ List.replicate n 0) (hstarts : lineStarts root = before ++ start :: after) :
    advance root p = after.head?.getD p := by
  have hnode : getNodeAtPath root p = u := deepest_of_nodeAt hu
  rw [advance, hnode, if_neg (not_not.mpr hleaf), nextLineStart_eq hp hstarts]

theorem advance_of_children {root : TreeNode ι} {p : List ℕ}
    (hchildren : (getNodeAtPath root p).children ≠ []) :
    advance root p = lineEnd root p := by
  rw [advance, if_pos hchildren]

/-- From the end of a line the steps go through all lines behind it. -/
theorem walks_leaf {root u : TreeNode ι} {p start : List ℕ} {n : ℕ}
    {before after : List (List ℕ)} (hu : root.nodeAt p = some u) (hleaf : u.children = [])
    (hp : p = start ++ List.replicate n 0) (hstarts : lineStarts root = before ++ start :: after) :
    Walks (advance root) (p :: after.flatMap (lineStops root)) := by
  induction after generalizing p start n before u with
  | nil => exact advance_leaf hu hleaf hp hstarts
  | cons next after ih =>
      have hadvance := advance_leaf hu hleaf hp hstarts
      rw [List.head?_cons, Option.getD_some] at hadvance
      have hstarts' : lineStarts root = (before ++ [start]) ++ next :: after := by
        rw [hstarts, List.append_assoc]
        rfl
      have hnext : next ∈ lineStarts root := by simp [hstarts]
      obtain ⟨hvalid, hstart⟩ := mem_lineStarts.mp hnext
      obtain ⟨v, hv⟩ := Option.isSome_iff_exists.mp hvalid
      have hnode : getNodeAtPath root next = v := deepest_of_nodeAt hv
      rw [List.flatMap_cons, lineStops]
      by_cases hchildren : (getNodeAtPath root next).children = []
      · rw [if_pos hchildren]
        rw [hnode] at hchildren
        exact ⟨hadvance, ih hv hchildren (n := 0) (by simp) hstarts'⟩
      · rw [if_neg hchildren]
        obtain ⟨w, hw, hw'⟩ := nodeAt_lineEnd hvalid
        obtain ⟨m, hm⟩ := lineEnd_eq_replicate root next
        exact ⟨hadvance, advance_of_children hchildren, ih hw hw' hm hstarts'⟩

theorem walks_lineStops {root : TreeNode ι} {p start : List ℕ} {n : ℕ}
    {before after : List (List ℕ)} (hp : (root.nodeAt p).isSome)
    (hend : lineEnd root p = start ++ List.replicate n 0)
    (hstarts : lineStarts root = before ++ start :: after) :
    Walks (advance root) (lineStops root p ++ after.flatMap (lineStops root)) := by
  obtain ⟨u, hu, hleaf⟩ := nodeAt_lineEnd hp
  have hwalks := walks_leaf hu hleaf hend hstarts
  rw [lineStops]
  by_cases hchildren : (getNodeAtPath root p).children = []
  · rw [if_pos hchildren]
    rwa [lineEnd_of_leaf hchildren] at hwalks
  · rw [if_neg hchildren]
    exact ⟨advance_of_children hchildren, hwalks⟩

theorem mem_lineStops {root : TreeNode ι} {p q : List ℕ} (hq : q ∈ lineStops root p) :
    ∃ n, q = p ++ List.replicate n 0 := by
  rw [lineStops] at hq
  split_ifs at hq with hchildren
  · obtain rfl := List.mem_singleton.mp hq
    exact ⟨0, by simp⟩
  · rcases List.mem_pair.mp hq with rfl | rfl
    · exact ⟨0, by simp⟩
    · exact lineEnd_eq_replicate root p

theorem lineEnd_mem_lineStops (root : TreeNode ι) (p : List ℕ) :
    lineEnd root p ∈ lineStops root p := by
  rw [lineStops]
  split_ifs with hchildren
  · exact List.mem_singleton.mpr (lineEnd_of_leaf hchildren)
  · exact List.mem_pair.mpr (.inr rfl)

theorem nodup_lineStops (root : TreeNode ι) (p : List ℕ) : (lineStops root p).Nodup := by
  rw [lineStops]
  split_ifs with hchildren
  · exact List.nodup_singleton p
  · rw [List.nodup_cons, List.mem_singleton]
    refine ⟨fun h ↦ hchildren ?_, List.nodup_singleton _⟩
    rw [lineEnd, List.self_eq_append_right] at h
    exact mainLineEnd_eq_nil.mp h

theorem lineStart_of_mem_lineStops {root : TreeNode ι} {start q : List ℕ}
    (hstart : start ∈ lineStarts root) (hq : q ∈ lineStops root start) :
    lineStart q = start := by
  obtain ⟨n, rfl⟩ := mem_lineStops hq
  exact lineStart_append (mem_lineStarts.mp hstart).2 n

theorem nodup_stops {root : TreeNode ι} {starts : List (List ℕ)} (hnodup : starts.Nodup)
    (hstarts : ∀ start ∈ starts, start ∈ lineStarts root) :
    (starts.flatMap (lineStops root)).Nodup := by
  refine List.nodup_flatMap.mpr ⟨fun start _ ↦ nodup_lineStops root start, ?_⟩
  refine hnodup.imp_of_mem fun hstart hstart' hne q hq hq' ↦ hne ?_
  rw [← lineStart_of_mem_lineStops (hstarts _ hstart) hq,
    ← lineStart_of_mem_lineStops (hstarts _ hstart') hq']

theorem lineStarts_of_children {root : TreeNode ι} (hchildren : root.children ≠ []) :
    lineStarts root = [] ++ [0] :: linesBelow [] root := by
  rw [lineStarts_eq, if_neg hchildren]
  rfl

theorem eq_lineEnd {root u : TreeNode ι} {p : List ℕ} {n : ℕ} (hp : (root.nodeAt p).isSome)
    (hu : root.nodeAt (p ++ List.replicate n 0) = some u) (hleaf : u.children = []) :
    p ++ List.replicate n 0 = lineEnd root p := by
  obtain ⟨m, hm⟩ := lineEnd_eq_replicate root p
  obtain ⟨v, hv, hv'⟩ := nodeAt_lineEnd hp
  rw [hm] at hv
  rw [hm, leaf_unique hu hleaf hv hv']

theorem exists_lineStops_eq (root : TreeNode ι) (p : List ℕ) :
    ∃ rest, lineStops root p = p :: rest := by
  rw [lineStops]
  split_ifs
  · exact ⟨_, rfl⟩
  · exact ⟨_, rfl⟩

theorem mem_lineStarts_of_below {root : TreeNode ι} {start : List ℕ}
    (hstart : start ∈ linesBelow [] root) :
    start ∈ lineStarts root ∧ start ≠ [0] := by
  have hchildren : root.children ≠ [] := by
    intro hleaf
    cases root with
    | node data cs =>
        rw [children_node] at hleaf
        rw [hleaf, linesBelow] at hstart
        cases hstart
  have hstarts := lineStarts_of_children hchildren
  have hnodup := nodup_lineStarts root
  rw [hstarts, List.nil_append, List.nodup_cons] at hnodup
  refine ⟨?_, ?_⟩
  · rw [hstarts]
    exact List.mem_cons_of_mem _ hstart
  · rintro rfl
    exact hnodup.1 hstart

/-- The stops on the main line are no stops on another one. -/
theorem disjoint_lineStops (root : TreeNode ι) (k : ℕ) :
    (lineStops root (List.replicate k 0)).Disjoint
      ((linesBelow [] root).flatMap (lineStops root)) := by
  intro q hq hq'
  obtain ⟨start, hstart, hq'⟩ := List.mem_flatMap.mp hq'
  obtain ⟨hmem, hne⟩ := mem_lineStarts_of_below hstart
  have hline := lineStart_of_mem_lineStops hmem hq'
  obtain ⟨j, rfl⟩ := mem_lineStops hq
  rw [List.replicate_append_replicate] at hline
  cases hlen : k + j with
  | zero =>
      have hvalid := (mem_lineStarts.mp hmem).2
      rw [hlen] at hline
      rw [← hline] at hvalid
      cases hvalid
  | succ i =>
      have hzero : isLineStart [0] = true := rfl
      have hfirst := lineStart_append hzero i
      rw [hlen, List.replicate_succ] at hline
      rw [List.singleton_append, hline] at hfirst
      exact hne hfirst

/-- A leaf is a stop on its line. -/
theorem leaf_mem_stops {root u : TreeNode ι} {leaf : List ℕ} {k m : ℕ}
    (hp : (root.nodeAt (List.replicate k 0)).isSome)
    (hend : lineEnd root (List.replicate k 0) = [0] ++ List.replicate m 0)
    (hchildren : root.children ≠ []) (hu : root.nodeAt leaf = some u) (hleaf : u.children = []) :
    leaf ∈ lineStops root (List.replicate k 0) ++
      (linesBelow [] root).flatMap (lineStops root) := by
  have hne : leaf ≠ [] := by
    rintro rfl
    obtain rfl := Option.some.inj hu
    exact hchildren hleaf
  obtain ⟨start, j, hstart, rfl⟩ := exists_lineStart hne
  have hvalid : (root.nodeAt start).isSome := by
    obtain ⟨w, hw⟩ := nodeAt_of_prefix hu (List.prefix_append start _)
    rw [hw]
    rfl
  have hin : start ∈ lineStarts root := mem_lineStarts.mpr ⟨hvalid, hstart⟩
  rw [lineStarts_of_children hchildren, List.nil_append, List.mem_cons] at hin
  rw [List.mem_append]
  rcases hin with rfl | hin
  · obtain ⟨v, hv, hv'⟩ := nodeAt_lineEnd hp
    rw [hend] at hv
    rw [leaf_unique hu hleaf hv hv', ← hend]
    exact .inl (lineEnd_mem_lineStops root _)
  · refine .inr (List.mem_flatMap.mpr ⟨start, hin, ?_⟩)
    rw [eq_lineEnd hvalid hu hleaf]
    exact lineEnd_mem_lineStops root start

theorem exists_stops_of_children {root : TreeNode ι} {k : ℕ}
    (hp : (root.nodeAt (List.replicate k 0)).isSome) (hchildren : root.children ≠ []) :
    ∃ stops, Walks (advance root) (List.replicate k 0 :: stops) ∧
      (List.replicate k 0 :: stops).Nodup ∧
        ∀ leaf u, root.nodeAt leaf = some u → u.children = [] →
          leaf ∈ List.replicate k 0 :: stops := by
  have hstarts := lineStarts_of_children hchildren
  obtain ⟨n, hn⟩ := lineEnd_eq_replicate root (List.replicate k 0)
  rw [List.replicate_append_replicate] at hn
  have hpos : k + n ≠ 0 := by
    intro hzero
    obtain ⟨v, hv, hv'⟩ := nodeAt_lineEnd hp
    rw [hn, hzero] at hv
    obtain rfl := Option.some.inj hv
    exact hchildren hv'
  obtain ⟨m, hm⟩ := Nat.exists_eq_succ_of_ne_zero hpos
  have hend : lineEnd root (List.replicate k 0) = [0] ++ List.replicate m 0 := by
    rw [hn, hm, List.replicate_succ]
    rfl
  obtain ⟨rest, hrest⟩ := exists_lineStops_eq root (List.replicate k 0)
  refine ⟨rest ++ (linesBelow [] root).flatMap (lineStops root), ?_⟩
  rw [← List.cons_append, ← hrest]
  refine ⟨walks_lineStops hp hend hstarts, ?_, fun leaf u hu hleaf ↦
    leaf_mem_stops hp hend hchildren hu hleaf⟩
  have hnodup := nodup_lineStarts root
  rw [hstarts, List.nil_append, List.nodup_cons] at hnodup
  refine (nodup_lineStops root _).append (nodup_stops hnodup.2 ?_) (disjoint_lineStops root k)
  exact fun start hstart ↦ (mem_lineStarts_of_below hstart).1

/-- From a position of the main line the steps go along a list that has every leaf, and no
position twice. -/
theorem exists_stops {root : TreeNode ι} {k : ℕ}
    (hp : (root.nodeAt (List.replicate k 0)).isSome) :
    ∃ stops, Walks (advance root) (List.replicate k 0 :: stops) ∧
      (List.replicate k 0 :: stops).Nodup ∧
        ∀ leaf u, root.nodeAt leaf = some u → u.children = [] →
          leaf ∈ List.replicate k 0 :: stops := by
  by_cases hchildren : root.children = []
  · obtain rfl : k = 0 := by
      cases k with
      | zero => rfl
      | succ k =>
          rw [List.replicate_succ, nodeAt_cons, hchildren] at hp
          cases hp
    refine ⟨[], ?_, List.nodup_singleton _, ?_⟩
    · have hroot : getNodeAtPath root [] = root := rfl
      change advance root [] = []
      rw [advance, hroot, if_neg (not_not.mpr hchildren)]
      rfl
    · intro leaf u hu _
      cases leaf with
      | nil => exact List.mem_singleton.mpr rfl
      | cons i rest =>
          rw [nodeAt_cons, hchildren] at hu
          cases hu
  · exact exists_stops_of_children hp hchildren

/-- Positions that visit every leaf once and then stay where they are. -/
def VisitsLeaves (root : TreeNode ι) (positions : ℕ → List ℕ) : Prop :=
  ∃ last, (∀ n ≥ last, positions n = positions last) ∧
    (∀ m ≤ last, ∀ n ≤ last, positions m = positions n → m = n) ∧
      ∀ leaf u, root.nodeAt leaf = some u → u.children = [] →
        ∃! n, n ≤ last ∧ positions n = leaf

theorem goToBranchEndOrNextLine_visitsLeaves {s : TreeState ι} {k : ℕ}
    (hpractice : s.practicePath = none) (hposition : s.position = List.replicate k 0)
    (hvalid : (s.root.nodeAt s.position).isSome) :
    VisitsLeaves s.root fun n ↦ (goToBranchEndOrNextLine^[n] s).position := by
  have hrun : ∀ n, (goToBranchEndOrNextLine^[n] s).position =
      (advance s.root)^[n] (List.replicate k 0) := by
    intro n
    rw [iterate_goToBranchEndOrNextLine hpractice, ← hposition]
  rw [hposition] at hvalid
  obtain ⟨stops, hwalks, hnodup, hleaves⟩ := exists_stops hvalid
  simp only [hrun]
  refine ⟨stops.length, fun n hn ↦ hwalks.iterate_of_length_le hn,
    fun m hm n hn heq ↦ hwalks.iterate_injective hnodup hm hn heq, ?_⟩
  intro leaf u hu hleaf
  obtain ⟨n, hn, hat⟩ := hwalks.exists_iterate_eq (hleaves leaf u hu hleaf)
  refine ⟨n, ⟨hn, hat⟩, ?_⟩
  rintro m ⟨hm, hat'⟩
  exact hwalks.iterate_injective hnodup hm hn (hat'.trans hat.symm)

theorem goToBranchEndOrNextLine_practice {s : TreeState ι} (hpractice : s.practicePath ≠ none)
    (hleaf : (getNodeAtPath s.root s.position).children = []) :
    goToBranchEndOrNextLine s = s := by
  rw [goToBranchEndOrNextLine, if_neg (not_not.mpr hleaf),
    if_pos (Option.isSome_iff_ne_none.mpr hpractice)]

/-- The starts are those of all lines as the notation prints them; the next start of a move is
the one behind its line's.  Outside practice the steps from the main line visit every leaf once;
in practice a leaf is not left. -/
theorem lineNavigation (s : TreeState ι) :
    (lineStarts s.root = (printedMoves (writePGN [] true s.root)).filter isLineStart ∧
      (lineStarts s.root).Nodup ∧
        ∀ p, p ∈ lineStarts s.root ↔ (s.root.nodeAt p).isSome ∧ isLineStart p = true) ∧
    (nextLineStart s.root [] = none ∧
      ∀ before start after n, lineStarts s.root = before ++ start :: after →
        nextLineStart s.root (start ++ List.replicate n 0) = after.head?) ∧
    (s.practicePath = none → ∀ k, s.position = List.replicate k 0 →
      (s.root.nodeAt s.position).isSome →
        VisitsLeaves s.root fun n ↦ (goToBranchEndOrNextLine^[n] s).position) ∧
    (s.practicePath ≠ none → (getNodeAtPath s.root s.position).children = [] →
      goToBranchEndOrNextLine s = s) :=
  ⟨⟨lineStarts_eq_printed s.root, nodup_lineStarts s.root, fun _ ↦ mem_lineStarts⟩,
    ⟨rfl, fun _ _ _ _ hstarts ↦ nextLineStart_eq rfl hstarts⟩,
    fun hpractice _ ↦ goToBranchEndOrNextLine_visitsLeaves hpractice,
    goToBranchEndOrNextLine_practice⟩

/-- In practice the leaf of `1. d4` is never visited. -/
theorem KingPawn.not_visitsLeaves_practice :
    state.position = List.replicate 2 0 ∧ (state.root.nodeAt state.position).isSome ∧
      ¬VisitsLeaves state.root fun n ↦ (goToBranchEndOrNextLine^[n] state).position := by
  refine ⟨rfl, rfl, ?_⟩
  rintro ⟨last, -, -, hleaves⟩
  obtain ⟨n, ⟨-, hn⟩, -⟩ := hleaves [1] _ rfl rfl
  have hstays : goToBranchEndOrNextLine state = state :=
    goToBranchEndOrNextLine_practice (by decide) rfl
  have hiter : goToBranchEndOrNextLine^[n] state = state := Function.iterate_fixed hstays n
  simp only [hiter] at hn
  cases hn

end EnCroissant
