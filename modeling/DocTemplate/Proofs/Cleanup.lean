import DocTemplate.Cleanup
import DocTemplate.Proofs.Document.Outline
import DocTemplate.Proofs.Placeholder.Splice

/-!
# Cleaning up

Dropping language tags and proofing marks and merging runs change no text, no anchor
of a comment, and no place of a node (`Paragraph.Tidied`).

* `Paragraph.pushMerged_cases`: what merging does with one item;
* `Paragraph.tidied_stripLanguage`, `Paragraph.tidied_mergeRuns`: each pass;
* `Document.tidied_prepare`: all of them;
* `Document.finish_spec`: what is done after a filling changes neither nodes nor comments.
-/

namespace DocTemplate

/-- The anchors of comments in a paragraph. -/
def Paragraph.anchors (p : Paragraph) : List Inline :=
  p.content.filter fun item => item.commentId?.isSome

/-- Runs are no anchors. -/
theorem Paragraph.anchors_eq_filter_nonRunsOf (p : Paragraph) :
    p.anchors = (Inline.nonRunsOf p.content).filter fun item => item.commentId?.isSome := by
  rw [anchors, Inline.nonRunsOf, List.filter_filter]
  refine List.filter_congr fun item _ => ?_
  cases item <;> rfl

namespace Inline

/-- The items are runs of one style. -/
def SameStyle : Inline → Inline → Prop
  | run r, run s => r.style = s.style
  | _, _ => False

theorem sameStyle_iff {a b : Inline} :
    a.SameStyle b ↔ ∃ r s, a = run r ∧ b = run s ∧ r.style = s.style := by
  constructor
  · intro h
    cases a with
    | run r =>
      cases b with
      | run s => exact ⟨r, s, rfl, rfl, h⟩
      | _ => cases h
    | _ => cases h
  · rintro ⟨r, s, rfl, rfl, h⟩
    exact h

instance : DecidableRel SameStyle
  | run r, run s => inferInstanceAs (Decidable (r.style = s.style))
  | run _, rangeStart _ | run _, rangeEnd _ | run _, reference _ | run _, proof _ => isFalse id
  | rangeStart _, _ | rangeEnd _, _ | reference _, _ | proof _, _ => isFalse id

end Inline

/-- The same paragraph, text and anchors, with other formatting and other runs. -/
structure Paragraph.Tidied (p q : Paragraph) : Prop where
  id : q.id = p.id
  text : q.text = p.text
  anchors : q.anchors = p.anchors

namespace Paragraph

variable {p q r : Paragraph}

theorem Tidied.refl (p : Paragraph) : p.Tidied p := ⟨rfl, rfl, rfl⟩

theorem Tidied.trans (h : p.Tidied q) (h' : q.Tidied r) : p.Tidied r :=
  ⟨h'.id.trans h.id, h'.text.trans h.text, h'.anchors.trans h.anchors⟩

theorem tidied_stripLanguage (p : Paragraph) : p.Tidied p.stripLanguage where
  id := rfl
  text := by
    rw [← String.toList_inj, toList_text, toList_text, stripLanguage]
    induction p.content with
    | nil => rfl
    | cons item items ih => cases item <;> simp_all [Inline.isProof, Inline.mapRun, Inline.chars]
  anchors := by
    rw [anchors, anchors, stripLanguage]
    induction p.content with
    | nil => rfl
    | cons item items ih =>
      cases item <;> simp_all [Inline.isProof, Inline.mapRun, Inline.commentId?]

/-! ## Merging runs -/

theorem chars_pushJoined (items : List RunItem) (item : RunItem) :
    RunItem.charsOf (RunItem.pushJoined items item) = RunItem.charsOf items ++ item.chars := by
  unfold RunItem.pushJoined
  split
  · next s t hlast =>
    obtain ⟨init, rfl⟩ := List.getLast?_eq_some_iff.1 hlast
    simp [RunItem.charsOf, RunItem.chars]
  · simp [RunItem.charsOf]

theorem chars_foldl_pushJoined (items more : List RunItem) :
    RunItem.charsOf (more.foldl RunItem.pushJoined items) =
      RunItem.charsOf items ++ RunItem.charsOf more := by
  induction more generalizing items with
  | nil => simp [RunItem.charsOf]
  | cons item more ih =>
    rw [List.foldl_cons, ih, chars_pushJoined]
    simp [RunItem.charsOf]

/-- An item joins the last run if it is a run of the same style, and otherwise comes after it. -/
theorem pushMerged_cases (items : List Inline) (item : Inline) :
    (∃ front last r, items = front ++ [.run last] ∧ item = .run r ∧ last.style = r.style ∧
      pushMerged items item =
        front ++ [.run { last with content := r.content.foldl RunItem.pushJoined last.content }]) ∨
    ((∀ a ∈ items.getLast?, ¬ a.SameStyle item) ∧ pushMerged items item = items ++ [item]) := by
  unfold pushMerged
  split
  · next last r hlast =>
    split
    · next hstyle =>
      obtain ⟨front, rfl⟩ := List.getLast?_eq_some_iff.1 hlast
      exact .inl ⟨front, last, r, rfl, rfl, hstyle, by simp⟩
    · next hstyle =>
      refine .inr ⟨fun a ha => ?_, rfl⟩
      obtain rfl := Option.some.inj (hlast.symm.trans ha)
      exact hstyle
  · next hnot =>
    refine .inr ⟨fun a ha hsame => ?_, rfl⟩
    obtain ⟨last, r, rfl, rfl, -⟩ := Inline.sameStyle_iff.1 hsame
    exact hnot last r ha rfl

/-- An item is added with its characters, and a run is no anchor. -/
theorem pushMerged_spec (items : List Inline) (item : Inline) :
    (pushMerged items item).flatMap Inline.chars = items.flatMap Inline.chars ++ item.chars ∧
      Inline.nonRunsOf (pushMerged items item) =
        Inline.nonRunsOf items ++ Inline.nonRunsOf [item] := by
  rcases pushMerged_cases items item with ⟨front, last, r, rfl, rfl, -, heq⟩ | ⟨-, heq⟩
  · simp [heq, Inline.chars, chars_foldl_pushJoined, Inline.nonRunsOf, Inline.isRun]
  · simp [heq]

theorem foldl_pushMerged_spec (items more : List Inline) :
    (more.foldl pushMerged items).flatMap Inline.chars =
        items.flatMap Inline.chars ++ more.flatMap Inline.chars ∧
      Inline.nonRunsOf (more.foldl pushMerged items) =
        Inline.nonRunsOf items ++ Inline.nonRunsOf more := by
  induction more generalizing items with
  | nil => simp [Inline.nonRunsOf]
  | cons item more ih =>
    obtain ⟨hchars, hnonRuns⟩ := ih (pushMerged items item)
    obtain ⟨hchars', hnonRuns'⟩ := pushMerged_spec items item
    rw [List.foldl_cons, hchars, hnonRuns, hchars', hnonRuns', List.append_assoc, List.append_assoc,
      ← Inline.nonRunsOf_append]
    exact ⟨rfl, rfl⟩

/-- Merging is about runs only. -/
theorem nonRunsOf_mergeRuns (p : Paragraph) :
    Inline.nonRunsOf p.mergeRuns.content = Inline.nonRunsOf p.content :=
  (foldl_pushMerged_spec [] p.content).2

theorem tidied_mergeRuns (p : Paragraph) : p.Tidied p.mergeRuns where
  id := rfl
  text := by
    rw [← String.toList_inj, toList_text, toList_text, mergeRuns]
    simpa using (foldl_pushMerged_spec [] p.content).1
  anchors := by
    rw [anchors_eq_filter_nonRunsOf, anchors_eq_filter_nonRunsOf, nonRunsOf_mergeRuns]

end Paragraph

/-! ## Documents -/

namespace Document

/-- The same document with its paragraphs tidied. -/
structure Tidied (doc doc' : Document) : Prop where
  comments : doc'.comments = doc.comments
  lastId : doc'.lastId = doc.lastId
  outline : ∃ tidy : Paragraph → Paragraph, (∀ p : Paragraph, p.Tidied (tidy p)) ∧
    doc'.outline = doc.outline.map (Placed.mapParagraph tidy)

variable {doc doc' doc'' : Document}

theorem Tidied.refl (doc : Document) : doc.Tidied doc where
  comments := rfl
  lastId := rfl
  outline := by
    refine ⟨fun p => p, Paragraph.Tidied.refl, (List.map_id'' (fun e => ?_) _).symm⟩
    rcases e with ⟨_ | _ | _, _⟩ <;> rfl

theorem Tidied.trans (h : doc.Tidied doc') (h' : doc'.Tidied doc'') : doc.Tidied doc'' where
  comments := h'.comments.trans h.comments
  lastId := h'.lastId.trans h.lastId
  outline := by
    obtain ⟨tidy, htidy, hout⟩ := h.outline
    obtain ⟨tidy', htidy', hout'⟩ := h'.outline
    refine ⟨fun p => tidy' (tidy p), fun p => (htidy p).trans (htidy' _), ?_⟩
    rw [hout', hout, List.map_map]
    refine List.map_congr_left fun e _ => ?_
    rcases e with ⟨_ | _ | _, _⟩ <;> rfl

theorem Tidied.of_mapParagraphs {tidy : Paragraph → Paragraph}
    (h : ∀ p : Paragraph, p.Tidied (tidy p)) (doc : Document) :
    doc.Tidied (doc.mapParagraphs tidy) where
  comments := rfl
  lastId := rfl
  outline := ⟨tidy, h, doc.outline_mapParagraphs tidy⟩

theorem tidied_stripLanguage (doc : Document) : doc.Tidied doc.stripLanguage := by
  obtain ⟨hcomments, hlastId, houtline⟩ :=
    Tidied.of_mapParagraphs Paragraph.tidied_stripLanguage doc
  exact ⟨hcomments, hlastId, houtline⟩

/-- What is done before a filling. -/
theorem tidied_prepare (doc : Document) (settings : Settings) :
    doc.Tidied (doc.prepare settings).1 := by
  unfold prepare
  have hstrip : doc.Tidied (if settings.stripLanguage then doc.stripLanguage else doc) := by
    split
    · exact doc.tidied_stripLanguage
    · exact .refl doc
  dsimp only
  split
  · exact hstrip.trans (.of_mapParagraphs Paragraph.tidied_mergeRuns _)
  · exact hstrip

/-- The paragraphs are at their places. -/
theorem Tidied.exists_paragraph (h : doc.Tidied doc') {p : Paragraph} {around : List CellPosition}
    (hp : ⟨.paragraph p, around⟩ ∈ doc.outline) :
    ∃ q, ⟨.paragraph q, around⟩ ∈ doc'.outline ∧ p.Tidied q := by
  obtain ⟨tidy, htidy, hout⟩ := h.outline
  rw [hout]
  exact ⟨tidy p, List.mem_map.2 ⟨_, hp, rfl⟩, htidy p⟩

/-- Tidying keeps the numbers of the nodes. -/
theorem Tidied.map_id_outline (h : doc.Tidied doc') :
    doc'.outline.map Placed.id = doc.outline.map Placed.id := by
  obtain ⟨tidy, htidy, hout⟩ := h.outline
  rw [hout, List.map_map]
  refine List.map_congr_left fun e _ => ?_
  rcases e with ⟨p | _ | _, _⟩
  · exact (htidy p).id
  · rfl
  · rfl

/-- What is done after a filling is about notes only. -/
theorem finish_spec (doc : Document) (settings : Settings) :
    (doc.finish settings).1.outline = doc.outline ∧
      (doc.finish settings).1.comments = doc.comments := by
  rw [finish]
  split <;> exact ⟨rfl, rfl⟩

/-- What the texts and the anchors of the paragraphs say is as it was. -/
theorem Tidied.map_paragraphs (h : doc.Tidied doc') {α : Type} {f : Paragraph → α}
    (hf : ∀ p q : Paragraph, p.Tidied q → f q = f p) :
    doc'.paragraphs.map f = doc.paragraphs.map f := by
  obtain ⟨tidy, htidy, hout⟩ := h.outline
  rw [paragraphs_eq_outline, paragraphs_eq_outline, hout, List.filterMap_map, List.map_filterMap,
    List.map_filterMap]
  refine List.filterMap_congr fun e _ => ?_
  rcases e with ⟨p | _ | _, _⟩
  · exact congrArg some (hf _ _ (htidy p))
  · rfl
  · rfl

end Document

end DocTemplate
