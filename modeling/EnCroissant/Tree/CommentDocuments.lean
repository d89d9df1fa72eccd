import EnCroissant.Tree.CommentNormal

/-!
# Documents of a comment

A document that the editor holds is read into paragraphs of characters, and a document
built from such paragraphs is read back into them.  So what holds of paragraphs holds of
documents: normalising one twice is normalising it once, and its text nests.
-/

namespace EnCroissant.CommentSerializer

/-! ## Reading -/

theorem forall₂_iff_mapM {α β : Type} (f : α → Except String β) (as : List α) :
    ∀ bs : List β, as.mapM f = .ok bs ↔ List.Forall₂ (fun a b ↦ f a = .ok b) as bs := by
  induction as with
  | nil =>
      intro bs
      rw [List.mapM_nil, List.forall₂_nil_left_iff]
      exact ⟨fun h ↦ (Except.ok.inj h).symm, fun h ↦ h ▸ rfl⟩
  | cons a as ih =>
      intro bs
      rw [List.mapM_cons, List.forall₂_cons_left_iff]
      cases ha : f a with
      | error e => simp [bind, Except.bind]
      | ok b =>
          cases has : as.mapM f with
          | error e =>
              have hnone : ∀ later, ¬List.Forall₂ (fun a b ↦ f a = .ok b) as later := by
                intro later hlater
                rw [← ih, has] at hlater
                cases hlater
              simp [bind, Except.bind, hnone]
          | ok later =>
              simp only [bind, Except.bind, pure, Except.pure, ← ih, has]
              constructor
              · rintro ⟨⟩
                exact ⟨b, later, rfl, rfl, rfl⟩
              · rintro ⟨b', later', hb, hlater, rfl⟩
                cases hb
                cases hlater
                rfl

/-- A mark that the serializer knows. -/
def isMark (mark : MarkContent) : Bool :=
  if mark.type = "link" then
    (match mark.href with
      | .text _ => true
      | _ => false) && mark.title ≠ .other
  else ["bold", "italic", "strike", "underline"].contains mark.type

def isNode (node : NodeContent) : Bool :=
  node.marks.all isMark &&
    (node.type = "hardBreak" || (node.type = "text" && node.text.isSome))

/-- A document of paragraphs with text and hard breaks. -/
def isComment (document : DocumentContent) : Bool :=
  document.type = "doc" && document.content.all fun paragraph ↦
    paragraph.type = "paragraph" && paragraph.content.all isNode

theorem exists_markKey {mark : MarkContent} (h : isMark mark = true) :
    ∃ found, markKey mark = .ok found := by
  rw [isMark] at h
  rw [markKey]
  split_ifs at h ⊢ with hlink hbold hitalic hstrike hunderline
  · cases hhref : mark.href with
    | absent => simp [hhref] at h
    | other => simp [hhref] at h
    | text href =>
        cases htitle : mark.title with
        | absent => exact ⟨_, rfl⟩
        | text title => exact ⟨_, rfl⟩
        | other => simp [htitle] at h
  · exact ⟨_, rfl⟩
  · exact ⟨_, rfl⟩
  · exact ⟨_, rfl⟩
  · exact ⟨_, rfl⟩
  · simp [hbold, hitalic, hstrike, hunderline] at h

theorem exists_mapM {α β : Type} {f : α → Except String β} {as : List α}
    (h : ∀ a ∈ as, ∃ b, f a = .ok b) : ∃ bs, as.mapM f = .ok bs := by
  induction as with
  | nil => exact ⟨[], rfl⟩
  | cons a as ih =>
      obtain ⟨b, hb⟩ := h a List.mem_cons_self
      obtain ⟨bs, hbs⟩ := ih fun a' ha' ↦ h a' (List.mem_cons_of_mem _ ha')
      exact ⟨b :: bs, (forall₂_iff_mapM f _ _).mpr
        (.cons hb ((forall₂_iff_mapM f _ _).mp hbs))⟩

theorem exists_nodeCharacters {node : NodeContent} (h : isNode node = true) :
    ∃ found, nodeCharacters node = .ok found := by
  rw [isNode, Bool.and_eq_true, List.all_eq_true] at h
  obtain ⟨marks, hmarks⟩ := exists_mapM fun mark hmark ↦ exists_markKey (h.1 mark hmark)
  rw [nodeCharacters, hmarks]
  by_cases hbreak : node.type = "hardBreak"
  · simp only [bind, Except.bind, hbreak, if_true]
    exact ⟨_, rfl⟩
  · simp only [hbreak, decide_false, Bool.false_or, Bool.and_eq_true, decide_eq_true_eq] at h
    obtain ⟨text, htext⟩ := Option.isSome_iff_exists.mp h.2.2
    simp only [bind, Except.bind, htext, h.2.1, if_true]
    exact ⟨_, rfl⟩

/-- Every document of text and hard breaks is read. -/
theorem exists_paragraphs {document : DocumentContent} (h : isComment document = true) :
    ∃ found, paragraphs document = .ok found := by
  rw [isComment, Bool.and_eq_true, decide_eq_true_eq, List.all_eq_true] at h
  have hparagraph : ∀ paragraph ∈ document.content,
      ∃ characters, paragraphCharacters paragraph = .ok characters := by
    intro paragraph hparagraph
    have hcontent := h.2 paragraph hparagraph
    rw [Bool.and_eq_true, decide_eq_true_eq, List.all_eq_true] at hcontent
    obtain ⟨nodes, hnodes⟩ := exists_mapM fun node hnode ↦
      exists_nodeCharacters (hcontent.2 node hnode)
    rw [paragraphCharacters, if_neg (not_not_intro hcontent.1), hnodes]
    exact ⟨_, rfl⟩
  obtain ⟨found, hfound⟩ := exists_mapM hparagraph
  rw [paragraphs, if_neg (not_not_intro h.1), hfound]
  exact ⟨_, rfl⟩

/-! ## Characters that are read -/

/-- A character as it is read: a hard break is a line break, and its marks are sorted. -/
structure Proper (c : Character) : Prop where
  line : c.hardBreak = true → c.text = '\n'
  sorted : c.marks.Pairwise fun a b ↦ a.key ≤ b.key
  nodup : c.marks.Nodup

theorem Keeps.proper {c d : Character} (h : Keeps c d) (hc : Proper c) : Proper d :=
  ⟨fun hbreak ↦ h.1.trans (hc.line (h.2.1.symm.trans hbreak)), hc.sorted.sublist h.2.2,
    hc.nodup.sublist h.2.2⟩

theorem sorted_sortedMarks (marks : List Mark) :
    (sortedMarks marks).Pairwise fun a b ↦ a.key ≤ b.key := by
  have htotal : Std.Total fun a b : Mark ↦ a.key ≤ b.key := ⟨fun a b ↦ le_total a.key b.key⟩
  have htrans : IsTrans Mark fun a b ↦ a.key ≤ b.key := ⟨fun _ _ _ hab hbc ↦ le_trans hab hbc⟩
  exact List.pairwise_insertionSort _ _

theorem nodup_sortedMarks (marks : List Mark) : (sortedMarks marks).Nodup := by
  have hnodup := @Firsts.nodup_keys_firstsFrom Mark Mark _ id [] marks
  rw [List.map_id] at hnodup
  exact (List.perm_insertionSort _ _).nodup_iff.mpr hnodup

theorem Proper.sortedMarks_eq {c : Character} (h : Proper c) : sortedMarks c.marks = c.marks := by
  have hfirsts : Firsts.firstsFrom id [] c.marks = c.marks := by
    apply Firsts.firstsFrom_of_nodup
    · rw [List.map_id]
      exact h.nodup
    · exact fun _ _ ↦ List.not_mem_nil
  rw [sortedMarks, hfirsts]
  exact h.sorted.insertionSort_eq

theorem proper_of_nodeCharacters {node : NodeContent} {found : List Character}
    (h : nodeCharacters node = .ok found) : ∀ c ∈ found, Proper c := by
  rw [nodeCharacters] at h
  cases hmarks : node.marks.mapM markKey with
  | error e =>
      rw [hmarks] at h
      cases h
  | ok marks =>
      rw [hmarks] at h
      simp only [bind, Except.bind] at h
      split at h
      · cases h
        intro c hc
        rw [List.mem_singleton] at hc
        rw [hc]
        exact ⟨fun _ ↦ rfl, sorted_sortedMarks marks, nodup_sortedMarks marks⟩
      · split at h
        · split_ifs at h
          cases h
          intro c hc
          obtain ⟨text, -, rfl⟩ := List.mem_map.mp hc
          exact ⟨fun hbreak ↦ absurd hbreak Bool.false_ne_true, sorted_sortedMarks marks,
            nodup_sortedMarks marks⟩
        · cases h

theorem exists_of_mem_right {α β : Type*} {R : α → β → Prop} {as : List α} {bs : List β}
    (h : List.Forall₂ R as bs) {b : β} (hb : b ∈ bs) : ∃ a ∈ as, R a b := by
  induction h with
  | nil => cases hb
  | cons hab _ ih =>
      rcases List.mem_cons.mp hb with rfl | hb
      · exact ⟨_, List.mem_cons_self, hab⟩
      · obtain ⟨a, ha, hab⟩ := ih hb
        exact ⟨a, List.mem_cons_of_mem _ ha, hab⟩

/-- Paragraphs as they are read. -/
def ProperParagraphs (found : List (List Character)) : Prop :=
  ∀ paragraph ∈ found, paragraph ≠ [] ∧ ∀ c ∈ paragraph, Proper c

theorem proper_of_paragraphs {document : DocumentContent} {found : List (List Character)}
    (h : paragraphs document = .ok found) : ProperParagraphs found := by
  rw [paragraphs] at h
  split_ifs at h
  cases hread : document.content.mapM paragraphCharacters with
  | error e =>
      rw [hread] at h
      cases h
  | ok all =>
      rw [hread] at h
      cases h
      intro paragraph hparagraph
      obtain ⟨hmem, hne⟩ := List.mem_filter.mp hparagraph
      obtain ⟨content, -, hcontent⟩ :=
        exists_of_mem_right ((forall₂_iff_mapM _ _ _).mp hread) hmem
      refine ⟨by simpa using hne, fun c hc ↦ ?_⟩
      rw [paragraphCharacters] at hcontent
      split_ifs at hcontent
      cases hnodes : content.content.mapM nodeCharacters with
      | error e =>
          rw [hnodes] at hcontent
          cases hcontent
      | ok nodes =>
          rw [hnodes] at hcontent
          cases hcontent
          obtain ⟨characters, hcharacters, hc⟩ := List.mem_flatten.mp hc
          obtain ⟨node, -, hnode⟩ :=
            exists_of_mem_right ((forall₂_iff_mapM _ _ _).mp hnodes) hcharacters
          exact proper_of_nodeCharacters hnode c hc

/-! ## Writing a document -/

theorem markKey_markContent (mark : Mark) : markKey (markContent mark) = .ok mark := by
  cases mark with
  | bold => rfl
  | italic => rfl
  | strike => rfl
  | underline => rfl
  | link href title => cases title <;> rfl

theorem nodeCharacters_nodeContent {c : Character} (h : Proper c) :
    nodeCharacters (nodeContent c) = .ok [c] := by
  have hmarks : (nodeContent c).marks.mapM markKey = .ok c.marks := by
    rw [forall₂_iff_mapM, nodeContent, List.forall₂_map_left_iff]
    exact List.forall₂_same.mpr fun mark _ ↦ markKey_markContent mark
  have hline := h.line
  rw [nodeCharacters, hmarks]
  simp only [bind, Except.bind, h.sortedMarks_eq, nodeContent]
  obtain ⟨text, marks, hardBreak⟩ := c
  cases hardBreak with
  | true =>
      rw [if_pos (if_pos rfl), ← hline rfl]
  | false => rfl

/-- A document built from paragraphs is read back into them. -/
theorem paragraphs_documentContent {found : List (List Character)} (h : ProperParagraphs found) :
    paragraphs (documentContent found) = .ok found := by
  have hread : (documentContent found).content.mapM paragraphCharacters = .ok found := by
    rw [forall₂_iff_mapM, documentContent, List.forall₂_map_left_iff]
    refine List.forall₂_same.mpr fun paragraph hparagraph ↦ ?_
    have hnodes : (paragraph.map nodeContent).mapM nodeCharacters =
        .ok (paragraph.map fun c ↦ [c]) := by
      rw [forall₂_iff_mapM, List.forall₂_map_left_iff, List.forall₂_map_right_iff]
      exact List.forall₂_same.mpr fun c hc ↦
        nodeCharacters_nodeContent ((h paragraph hparagraph).2 c hc)
    rw [paragraphCharacters, if_neg (not_not_intro rfl), hnodes]
    have hflat : (paragraph.map fun c ↦ [c]).flatten = paragraph := by
      rw [← List.flatMap_def, List.flatMap_singleton']
    exact congrArg Except.ok hflat
  have hfilter : found.filter (!·.isEmpty) = found := by
    refine List.filter_eq_self.mpr fun paragraph hparagraph ↦ ?_
    have hne := (h paragraph hparagraph).1
    cases paragraph with
    | nil => exact absurd rfl hne
    | cons c rest => rfl
  have htype : ¬(documentContent found).type ≠ "doc" := not_not_intro rfl
  rw [paragraphs, if_neg htype, hread]
  exact congrArg Except.ok hfilter

theorem ProperParagraphs.normalize {found : List (List Character)} (h : ProperParagraphs found) :
    ProperParagraphs (found.map normalize) := by
  intro paragraph hparagraph
  obtain ⟨plain, hplain, rfl⟩ := List.mem_map.mp hparagraph
  obtain ⟨hne, hproper⟩ := h plain hplain
  have hkeeps := keeps_normalize plain
  constructor
  · intro hnil
    rw [hnil, List.forall₂_nil_right_iff] at hkeeps
    exact hne hkeeps
  · intro d hd
    obtain ⟨c, hc, hkept⟩ := exists_of_mem_right hkeeps hd
    exact hkept.proper (hproper c hc)

/-! ## Normal forms -/

/-- What the normal form of a comment is to it: the same text with some of the marks, whose runs
begin and end with no flanking blank. -/
structure NormalForm (found normalized : List (List Character)) : Prop where
  text : (formatting normalized).text = (formatting found).text
  keeps : List.Forall₂ (List.Forall₂ Keeps) found normalized
  links : normalized.map frame = found.map frame
  ends : ∀ paragraph ∈ normalized, ∀ mark ∈ emphasisMarks, ∀ run ∈ markRuns paragraph mark,
    isFlanking paragraph mark run.1 = false ∧ isFlanking paragraph mark (run.2 - 1) = false

theorem frame_normalize (paragraph : List Character) : frame (normalize paragraph) = frame paragraph := by
  have hfold : ∀ (marks : List Mark), (∀ mark ∈ marks, mark.isLink = false) →
      ∀ characters, frame (marks.foldl normalizeMark characters) = frame characters := by
    intro marks
    induction marks with
    | nil => exact fun _ _ ↦ rfl
    | cons mark marks ih =>
        intro hlinks characters
        rw [List.foldl_cons, ih fun other hother ↦ hlinks other (List.mem_cons_of_mem _ hother)]
        exact (thinned_normalizeMark characters mark).frame_eq (hlinks mark List.mem_cons_self)
  exact hfold emphasisMarks (by decide) paragraph

theorem map_intercalate {α β : Type*} (f : α → β) (separator : List α) (parts : List (List α)) :
    (separator.intercalate parts).map f =
      (separator.map f).intercalate (parts.map (·.map f)) := by
  induction parts with
  | nil => rfl
  | cons part parts ih =>
      cases parts with
      | nil => simp [List.intercalate]
      | cons next parts =>
          rw [List.map_cons] at ih ⊢
          rw [List.map_cons, List.intercalate_cons_cons, List.intercalate_cons_cons,
            List.map_append, List.map_append, ih]

theorem text_formatting (found : List (List Character)) :
    (formatting found).text = "\n\n".toList.intercalate (found.map (·.map Character.text)) := by
  exact map_intercalate Character.text _ found

theorem normalForm_normalize (found : List (List Character)) :
    NormalForm found (found.map normalize) := by
  have htexts : ∀ paragraph : List Character,
      (normalize paragraph).map Character.text = paragraph.map Character.text := by
    intro paragraph
    have hframe := congrArg (List.map Prod.fst) (frame_normalize paragraph)
    rwa [frame, frame, List.map_map, List.map_map] at hframe
  refine ⟨?_, ?_, ?_, ?_⟩
  · rw [text_formatting, text_formatting, List.map_map]
    congr 1
    exact List.map_congr_left fun paragraph _ ↦ htexts paragraph
  · rw [List.forall₂_map_right_iff]
    exact List.forall₂_same.mpr fun paragraph _ ↦ keeps_normalize paragraph
  · rw [List.map_map]
    exact List.map_congr_left fun paragraph _ ↦ frame_normalize paragraph
  · intro paragraph hparagraph mark hmark
    obtain ⟨plain, -, rfl⟩ := List.mem_map.mp hparagraph
    exact (settled_normalize hmark plain).ends

theorem normalizeCommentDocument_of_paragraphs {document : DocumentContent}
    {found : List (List Character)} (h : paragraphs document = .ok found) :
    normalizeCommentDocument document = .ok (documentContent (found.map normalize)) := by
  rw [normalizeCommentDocument, h]
  rfl

/-- A comment has a normal form, which is its own normal form, and its paragraphs are written as
texts that nest, in which every character stands once, escaped, between exactly its marks. -/
theorem serializeComment_nests (document : DocumentContent) (h : isComment document = true) :
    ∃ found normalized, paragraphs document = .ok found ∧
      normalizeCommentDocument document = .ok (documentContent normalized) ∧
      paragraphs (documentContent normalized) = .ok normalized ∧
      NormalForm found normalized ∧
      normalizeCommentDocument (documentContent normalized) = .ok (documentContent normalized) ∧
      serializeComment document = .ok ("\n\n".toList.intercalate (normalized.map render)) ∧
      ∀ paragraph ∈ normalized, (∀ c ∈ paragraph, c.marks.Nodup) ∧
        ∃ tokens, Renders paragraph (render paragraph) tokens := by
  obtain ⟨found, hfound⟩ := exists_paragraphs h
  have hproper := (proper_of_paragraphs hfound).normalize
  have hread := paragraphs_documentContent hproper
  have hnormal := normalizeCommentDocument_of_paragraphs hfound
  refine ⟨found, found.map normalize, hfound, hnormal, hread, normalForm_normalize found, ?_, ?_,
    fun paragraph hparagraph ↦ ?_⟩
  · have htwice : (found.map normalize).map normalize = found.map normalize := by
      rw [List.map_map]
      refine List.map_congr_left fun paragraph _ ↦ ?_
      rw [Function.comp_apply, normalize_normalize]
    rw [normalizeCommentDocument_of_paragraphs hread, htwice]
  · rw [serializeComment, hnormal]
    simp only [bind, Except.bind, hread]
  · have hnodup : ∀ c ∈ paragraph, c.marks.Nodup :=
      fun c hc ↦ ((hproper paragraph hparagraph).2 c hc).nodup
    exact ⟨hnodup, render_renders paragraph hnodup⟩

/-- Bold text with a blank at its end that an underlined link continues over a hard break. -/
def crossingMarks : DocumentContent :=
  ⟨"doc", [⟨"paragraph",
    [⟨"text", some "a ".toList, [markContent .bold]⟩,
      ⟨"text", some "b+".toList,
        [markContent .underline, markContent (.link "https://x.y".toList none),
          markContent .bold]⟩,
      ⟨"hardBreak", none, [markContent .underline, markContent .italic]⟩,
      ⟨"text", some "+ ".toList, [markContent .underline, markContent .italic]⟩]⟩]⟩

theorem crossingMarks_nest :
    ∃ found normalized, paragraphs crossingMarks = .ok found ∧
      normalizeCommentDocument crossingMarks = .ok (documentContent normalized) ∧
      NormalForm found normalized ∧
      normalizeCommentDocument (documentContent normalized) = .ok (documentContent normalized) ∧
      ∀ paragraph ∈ normalized, ∃ tokens, Renders paragraph (render paragraph) tokens := by
  obtain ⟨found, normalized, hfound, hnormal, -, hform, hagain, -, hrenders⟩ :=
    serializeComment_nests crossingMarks (by decide +kernel)
  exact ⟨found, normalized, hfound, hnormal, hform, hagain,
    fun paragraph hparagraph ↦ (hrenders paragraph hparagraph).2⟩

end EnCroissant.CommentSerializer
