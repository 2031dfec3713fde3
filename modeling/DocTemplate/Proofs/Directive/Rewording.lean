import DocTemplate.Proofs.Directive.Count
import DocTemplate.Proofs.Directive.WordReplacement

/-!
# Words that are replaced

The replacement of a word looks for the anchors of its comment in the paragraph as it is when it
comes to it, after other replacements. Another one changes nothing between these anchors if its
own range ends before this one starts, or starts after it has ended (`Inline.Apart`). So what is
there then is what was there at first.

* `WordReplacement.Encloses.exists_of_nonRunsOf`: anchors stay where they are among the items
  that are no runs;
* `WordReplacement.Encloses.exists_of_apart`: another replacement leaves what is between the
  anchors;
* `Move.descends_spared`: so does every move before the fillings of tables;
* `WordReplacement.rewords_iff`: the replacement is made if there is a run left;
* `Move.rewords_or_keeps`: it counts then, and no other move does.
-/

namespace DocTemplate

namespace Inline

/-- The range of one comment ends before the range of the other one starts. -/
def Apart (comment other : CommentId) (items : List Inline) : Prop :=
  .rangeEnd comment ∈ items.takeWhile (· ≠ .rangeStart other) ∨
    .rangeEnd other ∈ items.takeWhile (· ≠ .rangeStart comment)

instance (comment other : CommentId) (items : List Inline) : Decidable (Apart comment other items) :=
  inferInstanceAs (Decidable (_ ∈ _ ∨ _ ∈ _))

variable {comment other : CommentId} {items items' : List Inline}

theorem nonRunsOf_takeWhile {a : Inline} (ha : a.isRun = false) (items : List Inline) :
    nonRunsOf (items.takeWhile (· ≠ a)) = (nonRunsOf items).takeWhile (· ≠ a) := by
  induction items with
  | nil => rfl
  | cons item items ih =>
    cases item with
    | run r =>
      have hne : Inline.run r ≠ a := by
        rintro rfl
        cases ha
      simpa [hne] using ih
    | _ =>
      simp only [nonRunsOf, List.filter_cons_of_pos, isRun, Bool.not_false,
        List.takeWhile_cons] at ih ⊢
      split
      · rw [List.filter_cons_of_pos (by rfl), ih]
      · rfl

theorem mem_nonRunsOf_iff {a : Inline} (ha : a.isRun = false) :
    a ∈ nonRunsOf items ↔ a ∈ items := by
  simp [nonRunsOf, ha]

/-- Whether ranges are apart does not depend on the runs. -/
theorem Apart.of_nonRunsOf (h : Apart comment other items)
    (heq : nonRunsOf items' = nonRunsOf items) : Apart comment other items' := by
  have hmem : ∀ c c' : CommentId, .rangeEnd c ∈ items.takeWhile (· ≠ .rangeStart c') →
      .rangeEnd c ∈ items'.takeWhile (· ≠ .rangeStart c') := by
    intro c c' hmem
    rw [← mem_nonRunsOf_iff rfl, nonRunsOf_takeWhile rfl] at hmem ⊢
    rwa [heq]
  exact h.imp (hmem _ _) (hmem _ _)

end Inline

namespace WordReplacement

variable {comment other : CommentId} {items items' before between after : List Inline}
  {content : List RunItem}

namespace Encloses

/-- Without runs, the anchors are still where they are. -/
theorem nonRunsOf_eq (h : Encloses comment items before between after) :
    Encloses comment (Inline.nonRunsOf items) (Inline.nonRunsOf before) (Inline.nonRunsOf between)
      (Inline.nonRunsOf after) where
  eq := by
    rw [h.eq, Inline.nonRunsOf_append]
    simp [Inline.nonRunsOf, Inline.isRun]
  start_before := mt (Inline.mem_nonRunsOf_iff rfl).1 h.start_before
  end_before := mt (Inline.mem_nonRunsOf_iff rfl).1 h.end_before
  end_between := mt (Inline.mem_nonRunsOf_iff rfl).1 h.end_between

/-- They are there as well if there were other runs. -/
theorem exists_of_nonRunsOf (h : Encloses comment items before between after)
    (heq : Inline.nonRunsOf items' = Inline.nonRunsOf items) :
    ∃ before' between' after', Encloses comment items' before' between' after' := by
  have hitems := h.nonRunsOf_eq.eq
  rw [← heq] at hitems
  obtain ⟨before', rest, rfl, hbefore, hstart⟩ := List.filter_eq_append_iff.1 hitems
  obtain ⟨runs, rest, rfl, hruns, -, hrest⟩ := List.filter_eq_cons_iff.1 hstart
  obtain ⟨between', rest, rfl, hbetween, hend⟩ := List.filter_eq_append_iff.1 hrest
  obtain ⟨runs', after', rfl, hruns', -, -⟩ := List.filter_eq_cons_iff.1 hend
  have hmem : ∀ {a : Inline} {xs xs' runs : List Inline}, a.isRun = false →
      Inline.nonRunsOf xs' = Inline.nonRunsOf xs → (∀ x ∈ runs, ¬ (!x.isRun) = true) → a ∉ xs →
        a ∉ xs' ++ runs := by
    intro a xs xs' runs ha heq hruns hnot hmem
    rcases List.mem_append.1 hmem with hmem | hmem
    · rw [← Inline.mem_nonRunsOf_iff ha, heq, Inline.mem_nonRunsOf_iff ha] at hmem
      exact hnot hmem
    · exact hruns a hmem (by rw [ha]; rfl)
  exact ⟨before' ++ runs, between' ++ runs', after', by simp, hmem rfl hbefore hruns h.start_before,
    hmem rfl hbefore hruns h.end_before, hmem rfl hbetween hruns' h.end_between⟩

/-- The first anchors are in one place. -/
theorem unique {before' between' after' : List Inline}
    (h : Encloses comment items before between after)
    (h' : Encloses comment items before' between' after') :
    before' = before ∧ between' = between ∧ after' = after := by
  have hinj : ∀ {a : Inline} {as as' bs bs' : List Inline}, as ++ a :: bs = as' ++ a :: bs' →
      a ∉ as → a ∉ as' → as' = as ∧ bs' = bs := by
    intro a as as' bs bs' heq has has'
    rcases exists_of_append_eq_append_cons heq with ⟨zs, rfl, -⟩ | ⟨zs, rfl, hzs⟩
    · exact absurd (by simp) has
    · cases zs with
      | nil => exact ⟨by simp, by simpa using hzs.symm⟩
      | cons b zs =>
        obtain ⟨rfl, -⟩ := List.cons_eq_cons.1 hzs
        exact absurd (by simp) has'
  have heq := h.eq.symm.trans h'.eq
  obtain ⟨rfl, hrest⟩ := hinj heq h.start_before h'.start_before
  exact ⟨rfl, hinj hrest.symm h.end_between h'.end_between⟩

/-- The range that the other anchor is outside of comes first. -/
theorem exists_of_mem_takeWhile (h : Encloses comment items before between after)
    {other : CommentId} {front back : List Inline}
    (hitems : items = front ++ .rangeStart other :: back) (hfront : .rangeStart other ∉ front)
    (hmem : .rangeEnd comment ∈ items.takeWhile (· ≠ .rangeStart other)) :
    ∃ mid, front = before ++ .rangeStart comment :: (between ++ .rangeEnd comment :: mid) ∧
      after = mid ++ .rangeStart other :: back := by
  have hfront' : items.takeWhile (· ≠ .rangeStart other) = front := by
    rw [hitems, List.takeWhile_append_of_pos, List.takeWhile_cons_of_neg (by simp), List.append_nil]
    intro a ha
    simp only [ne_eq, decide_eq_true_eq]
    rintro rfl
    exact hfront ha
  rw [hfront'] at hmem
  have hsplit : front ++ .rangeStart other :: back =
      (before ++ .rangeStart comment :: between) ++ .rangeEnd comment :: after := by
    rw [← hitems, h.eq]
    simp
  rcases exists_of_append_eq_append_cons hsplit with ⟨mid, rfl, rfl⟩ | ⟨mid, hmid, -⟩
  · exact ⟨mid, by simp, rfl⟩
  · -- The end would come before itself.
    have hnot : .rangeEnd comment ∉ before ++ .rangeStart comment :: between := by
      simp [h.end_before, h.end_between]
    rw [hmid] at hnot
    exact absurd (List.mem_append_left _ hmem) hnot

/-- Another replacement leaves what is between the anchors. -/
theorem exists_of_apart (h : Encloses comment items before between after)
    (hapart : Inline.Apart comment other items)
    (hitems : replaceBetween? other content items = some items') :
    ∃ before' after', Encloses comment items' before' between after' := by
  obtain ⟨before₁, between₁, after₁, h₁⟩ := WordReplacement.exists_encloses hitems
  rw [h₁.replaceBetween?_eq, Option.ite_none_right_eq_some] at hitems
  obtain rfl := Option.some.inj hitems.2
  rcases hapart with hmem | hmem
  · obtain ⟨mid, rfl, -⟩ := h.exists_of_mem_takeWhile h₁.eq h₁.start_before hmem
    exact ⟨before, mid ++ .rangeStart other :: (replaceRuns content between₁ ++
      .rangeEnd other :: after₁), by simp, h.start_before, h.end_before, h.end_between⟩
  · obtain ⟨mid, rfl, rfl⟩ := h₁.exists_of_mem_takeWhile h.eq h.start_before hmem
    have hruns : ∀ {a : Inline}, a.isRun = false →
        (a ∈ replaceRuns content between₁ ↔ a ∈ between₁) := fun ha => by
      rw [← Inline.mem_nonRunsOf_iff ha, nonRunsOf_replaceRuns, Inline.mem_nonRunsOf_iff ha]
    have hstart : _ ↔ .rangeStart comment ∈ between₁ := hruns rfl
    have hend : _ ↔ .rangeEnd comment ∈ between₁ := hruns rfl
    exact ⟨before₁ ++ .rangeStart other :: (replaceRuns content between₁ ++ .rangeEnd other :: mid),
      after, by simp, by simpa [hstart] using h.start_before, by simpa [hend] using h.end_before,
      h.end_between⟩

end Encloses

/-- There is a run between the anchors of a comment. -/
def EnclosesRun (comment : CommentId) (items : List Inline) : Prop :=
  ∃ before between after, Encloses comment items before between after ∧ between.any Inline.isRun

/-- What a paragraph may become before a word in it is replaced: what is in no run stays, and so
    does all that is between the anchors, if the range is apart from those of the others. -/
def Spared (paragraph : NodeId) (comment : CommentId) (others : CommentId → Prop)
    (_ : List CellPosition) (p q : Paragraph) : Prop :=
  q.id = p.id ∧ (p.id = paragraph → Inline.nonRunsOf q.content = Inline.nonRunsOf p.content ∧
    ((∀ other, others other → Inline.Apart comment other p.content) → ∀ before between after,
      Encloses comment p.content before between after →
        ∃ before' after', Encloses comment q.content before' between after'))

namespace Spared

variable {paragraph : NodeId} {others : CommentId → Prop}

theorem refl (around : List CellPosition) (p : Paragraph) :
    Spared paragraph comment others around p p :=
  ⟨rfl, fun _ => ⟨rfl, fun _ before _ after h => ⟨before, after, h⟩⟩⟩

theorem trans (around : List CellPosition) (p q r : Paragraph)
    (h : Spared paragraph comment others around p q)
    (h' : Spared paragraph comment others around q r) :
    Spared paragraph comment others around p r := by
  refine ⟨h'.1.trans h.1, fun hid => ?_⟩
  obtain ⟨hnonRuns, hbetween⟩ := h.2 hid
  obtain ⟨hnonRuns', hbetween'⟩ := h'.2 (h.1.trans hid)
  refine ⟨hnonRuns'.trans hnonRuns, fun hapart before between after henc => ?_⟩
  obtain ⟨before₁, after₁, henc₁⟩ := hbetween hapart before between after henc
  exact hbetween' (fun other hother => (hapart other hother).of_nonRunsOf hnonRuns) _ _ _ henc₁

/-- There is a run between the anchors if there was one. -/
theorem enclosesRun_iff {around : List CellPosition} {p q : Paragraph}
    (h : Spared paragraph comment others around p q) (hid : p.id = paragraph)
    (hapart : ∀ other, others other → Inline.Apart comment other p.content) :
    EnclosesRun comment q.content ↔ EnclosesRun comment p.content := by
  obtain ⟨hnonRuns, hbetween⟩ := h.2 hid
  constructor
  · rintro ⟨before, between, after, henc, hany⟩
    obtain ⟨before₁, between₁, after₁, henc₁⟩ := henc.exists_of_nonRunsOf hnonRuns.symm
    obtain ⟨before', after', henc'⟩ := hbetween hapart before₁ between₁ after₁ henc₁
    obtain ⟨-, rfl, -⟩ := henc.unique henc'
    exact ⟨before₁, _, after₁, henc₁, hany⟩
  · rintro ⟨before, between, after, henc, hany⟩
    obtain ⟨before', after', henc'⟩ := hbetween hapart before between after henc
    exact ⟨before', between, after', henc', hany⟩

end Spared

/-- The word of a comment in a paragraph is replaced by a text: the first of the runs between the
    anchors has this text, there is no other one any more, and this is counted. -/
def Rewords (f : Filler) (paragraph : NodeId) (comment : CommentId) (text : String) (p : Paragraph)
    (d d' : Draft) : Prop :=
  ∃ before left r right after doc,
    Encloses comment p.content before (left ++ .run r :: right) after ∧
    (∀ item ∈ left, item.isRun = false) ∧
    d.document.modifyParagraph? paragraph (fun p => { p with
      content := before ++ .rangeStart comment ::
        (left ++ .run { r with content := RunItem.breakLines f.settings.lineBreak text } ::
          Inline.nonRunsOf right ++ .rangeEnd comment :: after) }) = some doc ∧
    d' = ⟨doc, { d.report with wordsReplaced := d.report.wordsReplaced + 1 }⟩

variable {f : Filler} {paragraph : NodeId} {text : String} {p : Paragraph} {d d' : Draft}

theorem replaceRuns_append {left right : List Inline} (hleft : ∀ item ∈ left, item.isRun = false)
    (r : Run) : replaceRuns content (left ++ .run r :: right) =
      left ++ .run { r with content } :: Inline.nonRunsOf right := by
  induction left with
  | nil => rfl
  | cons item left ih =>
    rw [List.cons_append, replaceRuns, ih fun x hx => hleft x (List.mem_cons_of_mem _ hx)]
    · rfl
    · rintro r rfl
      cases hleft _ List.mem_cons_self

/-- The first run among some items. -/
theorem exists_first_run {items : List Inline} (h : items.any Inline.isRun) :
    ∃ left r right, items = left ++ .run r :: right ∧ ∀ item ∈ left, item.isRun = false := by
  obtain ⟨item, hitem⟩ := Option.isSome_iff_exists.1 (List.find?_isSome.2 (List.any_eq_true.1 h))
  obtain ⟨hrun, left, right, rfl, hleft⟩ := List.find?_eq_some_iff_append.1 hitem
  cases item with
  | run r => exact ⟨left, r, right, rfl, by simpa using hleft⟩
  | _ => cases hrun

/-- A word is replaced, or nothing is done: then its paragraph is gone, or there is no run between
    the anchors. -/
theorem rewords_or_eq (h : (perform f (.replaceWord paragraph comment text)).Yields d () d') :
    (∃ p, d.document.paragraph? paragraph = some p ∧ Rewords f paragraph comment text p d d') ∨
      (d' = d ∧ ∀ p, d.document.paragraph? paragraph = some p → ¬ EnclosesRun comment p.content) := by
  rcases Revision.yields_edit?_count.1 h with ⟨u, doc, hedit, rfl⟩ | ⟨hedit, rfl⟩
  · obtain ⟨p, hp, hedit⟩ := Option.bind_eq_some_iff.1 hedit
    obtain ⟨items, hitems, hedit⟩ := Option.bind_eq_some_iff.1 hedit
    obtain ⟨doc', hdoc, hedit⟩ := Option.bind_eq_some_iff.1 hedit
    cases hedit
    obtain ⟨before, between, after, henc⟩ := exists_encloses hitems
    rw [henc.replaceBetween?_eq, Option.ite_none_right_eq_some] at hitems
    obtain ⟨hany, hitems⟩ := hitems
    obtain ⟨left, r, right, rfl, hleft⟩ := exists_first_run hany
    rw [replaceRuns_append hleft] at hitems
    obtain rfl := Option.some.inj hitems
    exact .inl ⟨p, hp, before, left, r, right, after, doc, henc, hleft, hdoc, rfl⟩
  · refine .inr ⟨rfl, fun p hp ⟨before, between, after, henc, hany⟩ => ?_⟩
    obtain ⟨doc, hdoc⟩ := Document.exists_modifyParagraph? hp fun p => { p with
      content := before ++ .rangeStart comment ::
        (replaceRuns (RunItem.breakLines f.settings.lineBreak text) between ++
          .rangeEnd comment :: after) }
    simp [hp, henc.replaceBetween?_eq, hany, hdoc] at hedit

theorem Rewords.wordsReplaced (h : Rewords f paragraph comment text p d d') :
    d'.report.wordsReplaced = d.report.wordsReplaced + 1 := by
  obtain ⟨_, _, _, _, _, _, -, -, -, rfl⟩ := h
  rfl

theorem Rewords.enclosesRun (h : Rewords f paragraph comment text p d d') :
    EnclosesRun comment p.content := by
  obtain ⟨before, left, r, right, after, -, henc, -⟩ := h
  exact ⟨before, _, after, henc, by simp [Inline.isRun]⟩

/-- The only run between the anchors of a comment has this content. -/
def Shows (comment : CommentId) (content : List RunItem) (items : List Inline) : Prop :=
  ∃ (before between after : List Inline) (r : Run), Encloses comment items before between after ∧
    between.filter Inline.isRun = [.run { r with content }]

/-- The paragraph has the text then, and what is in no run as it was. -/
theorem Rewords.exists_paragraph (h : Rewords f paragraph comment text p d d')
    (hp : d.document.paragraph? paragraph = some p) :
    ∃ q around, ⟨.paragraph q, around⟩ ∈ d'.document.outline ∧ q.id = paragraph ∧
      Inline.nonRunsOf q.content = Inline.nonRunsOf p.content ∧
        Shows comment (RunItem.breakLines f.settings.lineBreak text) q.content := by
  obtain ⟨before, left, r, right, after, doc, henc, hleft, hdoc, rfl⟩ := h
  obtain ⟨around, hq⟩ := Document.mem_outline_of_modifyParagraph? hdoc hp
  refine ⟨_, around, hq, (Document.paragraph_mem_outline hp).1, ?_, before, _, after, r,
    ⟨rfl, henc.start_before, henc.end_before, ?_⟩, ?_⟩
  · rw [henc.eq]
    simp [Inline.nonRunsOf, Inline.isRun]
  · have hend := henc.end_between
    simp only [List.mem_append, List.mem_cons, reduceCtorEq, false_or, not_or] at hend ⊢
    exact ⟨hend.1, mt (Inline.mem_nonRunsOf_iff rfl).1 hend.2⟩
  · have hnone : left.filter Inline.isRun = [] :=
      List.filter_eq_nil_iff.2 fun item hitem => by simp [hleft item hitem]
    rw [List.filter_append, hnone, List.nil_append, List.filter_cons_of_pos rfl]
    simp [Inline.nonRunsOf]

/-- A word is replaced if there is a run between its anchors. -/
theorem rewords_iff (hp : d.document.paragraph? paragraph = some p)
    (h : (perform f (.replaceWord paragraph comment text)).Yields d () d') :
    Rewords f paragraph comment text p d d' ↔ EnclosesRun comment p.content := by
  refine ⟨Rewords.enclosesRun, fun hruns => ?_⟩
  rcases rewords_or_eq h with ⟨p', hp', hrewords⟩ | ⟨-, hnone⟩
  · obtain rfl := Option.some.inj (hp'.symm.trans hp)
    exact hrewords
  · exact absurd hruns (hnone p hp)

end WordReplacement

/-- Only the replacement of words counts as such. -/
theorem Pass.countsElsewhere_wordsReplaced {pass : Pass} (h : pass ≠ .words) :
    pass.CountsElsewhere Report.wordsReplaced := by
  cases pass with
  | words => exact absurd rfl h
  | repetitions => exact ⟨fun _ _ _ => rfl, fun _ _ => rfl⟩
  | fills => exact ⟨fun _ _ => rfl, fun _ _ => rfl⟩
  | _ => exact fun _ _ => rfl

namespace Move

open WordReplacement

/-- The move replaces a word. -/
def Rewords (f : Filler) (m : Move) (d d' : Draft) : Prop :=
  ∃ paragraph comment text p, m = ⟨.words, .replaceWord paragraph comment text⟩ ∧
    d.document.paragraph? paragraph = some p ∧
      WordReplacement.Rewords f paragraph comment text p d d'

variable {f : Filler} {n : Nat} {m : Move} {d d' : Draft} {paragraph : NodeId}
  {comment : CommentId} {text : String} {p : Paragraph} {others : CommentId → Prop}

theorem rewords_iff (hp : d.document.paragraph? paragraph = some p) :
    Rewords f ⟨.words, .replaceWord paragraph comment text⟩ d d' ↔
      WordReplacement.Rewords f paragraph comment text p d d' := by
  constructor
  · rintro ⟨_, _, _, p', heq, hp', hrewords⟩
    cases heq
    obtain rfl := Option.some.inj (hp'.symm.trans hp)
    exact hrewords
  · exact fun hrewords => ⟨paragraph, comment, text, p, rfl, hp, hrewords⟩

/-- A move that replaces a word counts one, and the others nothing. -/
theorem rewords_or_keeps (m : Move) (d d' : Draft) (h : (m.perform f).Yields d () d') :
    (m.Rewords f d d' ∧ d'.report.wordsReplaced = d.report.wordsReplaced + 1) ∨
      (¬ m.Rewords f d d' ∧ d'.report.wordsReplaced = d.report.wordsReplaced) := by
  have hcount : m.Rewords f d d' → d'.report.wordsReplaced = d.report.wordsReplaced + 1 := by
    rintro ⟨_, _, _, _, -, -, hrewords⟩
    exact hrewords.wordsReplaced
  have hkept : d'.report.wordsReplaced = d.report.wordsReplaced → ¬ m.Rewords f d d' := by
    intro hkept hrewords
    have hone := (hcount hrewords).symm.trans hkept
    simp at hone
  obtain ⟨pass, edit⟩ := m
  by_cases hword : ∃ paragraph comment text, (⟨pass, edit⟩ : Move) =
      ⟨.words, .replaceWord paragraph comment text⟩
  · obtain ⟨paragraph, comment, text, heq⟩ := hword
    cases heq
    rcases rewords_or_eq h with ⟨p, hp, hrewords⟩ | ⟨rfl, -⟩
    · have hmove := (rewords_iff hp).2 hrewords
      exact .inl ⟨hmove, hcount hmove⟩
    · exact .inr ⟨hkept rfl, rfl⟩
  · have hpart : d'.report.wordsReplaced = d.report.wordsReplaced := by
      by_cases hpass : pass = .words
      · subst hpass
        cases edit with
        | replaceWord paragraph comment text => exact absurd ⟨_, _, _, rfl⟩ hword
        | _ =>
          obtain ⟨-, rfl⟩ := Revision.yields_pure.1 h
          rfl
      · exact Pass.keeps_perform (Pass.countsElsewhere_wordsReplaced hpass) edit d () d' h
    exact .inr ⟨hkept hpart, hpart⟩

/-- Before tables are filled, a move spares the range of a word, if it is not to replace one in
    the same paragraph or that one is of another comment. -/
theorem descends_spared (hfills : m.pass ≠ .fills)
    (hothers : ∀ other text, m = ⟨.words, .replaceWord paragraph other text⟩ → others other)
    (hn : n ≤ d.document.lastId) (h : (m.perform f).Yields d () d') :
    d.document.Descends (Spared paragraph comment others) n d'.document := by
  by_cases hwords : m.pass = .words
  · cases does h with
    | loses hloses => exact hloses.descends Spared.refl
    | @rewords paragraph' other text p items around hp hitems hex =>
      have hspared : Spared paragraph comment others around p { p with content := items } := by
        refine ⟨rfl, fun hid => ?_⟩
        obtain rfl : paragraph = paragraph' :=
          hid.symm.trans (Document.paragraph_mem_outline hp).1
        exact ⟨nonRunsOf_replaceBetween? hitems, fun hapart _ _ _ henc =>
          henc.exists_of_apart (hapart other (hothers other text rfl)) hitems⟩
      exact hex.descends Spared.refl (.of_becomes (.cons (.paragraph rfl hspared) .nil))
    | repeats => cases hwords
    | fills => cases hwords
  · refine (descends_unchanged hwords hfills hn h).imp fun a p q hq => ?_
    rw [hq]
    exact Spared.refl a p

/-- And so do such moves one after the other. -/
theorem descends_spared_forM {moves : List Move} (hfills : ∀ m ∈ moves, m.pass ≠ .fills)
    (hothers : ∀ other text, ⟨.words, .replaceWord paragraph other text⟩ ∈ moves → others other)
    (hn : n ≤ d.document.lastId) (h : (moves.forM (perform f)).Yields d () d') :
    d.document.Descends (Spared paragraph comment others) n d'.document := by
  refine Revision.forM_induction (P := fun d₁ : Draft =>
    d.document.Descends (Spared paragraph comment others) n d₁.document) ?_
    (.refl Spared.refl _) h
  intro m d₁ d₂ hm hd hstep
  refine hd.trans Spared.trans (descends_spared (hfills m hm.mem) ?_
    (Nat.le_trans hn hd.lastId_le) hstep)
  rintro other text rfl
  exact hothers other text hm.mem

end Move

end DocTemplate
