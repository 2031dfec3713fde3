import DocTemplate.Proofs.Comment.Enclosure
import DocTemplate.Proofs.Directive.Rewording
import DocTemplate.Proofs.Engine.Contiguity
import DocTemplate.Proofs.Placeholder.Enclosure

/-!
# Words replaced in a filling

A replacement of a word is accepted if its comment encloses text before any placeholder is filled,
and is made after all of them are. In between, a placeholder that starts before the range of the
comment may take all runs in it with it (`Filler.Takes`). Then there is nothing left to replace;
else there is, as long as the paragraph is there and the ranges of other words in it are apart.

* `Stage.LeavesRun`: the visit leaves a run in the range of a comment;
* `Stage.Of.enclosesRun_iff`: whether there is a run when its replacement comes;
* `Engine.word_replaced_iff`: the words that are replaced in a filling, and their number.
-/

namespace DocTemplate

open WordReplacement

/-! ## The visit -/

namespace Stage

/-- There is a run in the range of a comment that the visit does not take: the paragraph is left
    to an edit, or no placeholder goes from before the range over the whole run. -/
def LeavesRun (s : Stage) (f : Filler) (scope : Value) (comment : CommentId) (p : Paragraph) :
    Prop :=
  ∃ before inner r rest after, Encloses comment p.content before (inner ++ .run r :: rest) after ∧
    (p.id ∈ s.plan.deferred ∨ ¬ f.Takes scope p before inner r)

variable {s : Stage} {e : Engine} {f : Filler} {scope : Value} {doc : Document}
  {comment : CommentId} {paragraph : NodeId} {text : String}

/-- After the visit to a paragraph, there is a run in the range of a comment if one was left. -/
theorem leavesRun_iff {p q : Paragraph} {around around' : List CellPosition}
    (h : Placed.Visited f scope s.plan.deferred ⟨.paragraph p, around⟩ ⟨.paragraph q, around'⟩) :
    EnclosesRun comment q.content ↔ s.LeavesRun f scope comment p := by
  obtain ⟨-, h⟩ := h
  dsimp only at h
  split at h
  next hdeferred =>
    rw [List.contains_iff_mem] at hdeferred
    rw [h]
    constructor
    · rintro ⟨before, between, after, henc, hany⟩
      obtain ⟨inner, r, rest, rfl, -⟩ := exists_first_run hany
      exact ⟨before, inner, r, rest, after, henc, .inl hdeferred⟩
    · rintro ⟨before, inner, r, rest, after, henc, -⟩
      exact ⟨before, _, after, henc, by simp [Inline.isRun]⟩
  next hdeferred =>
    rw [List.contains_iff_mem] at hdeferred
    obtain ⟨tally, hfill⟩ := h
    obtain ⟨-, -, hnonRuns⟩ := Filler.fillParagraph_frame hfill
    constructor
    · rintro ⟨before', between', after', henc', hany⟩
      obtain ⟨before, between, after, henc⟩ := henc'.exists_of_nonRunsOf hnonRuns.symm
      obtain ⟨inner, r, rest, rfl, htakes⟩ :=
        (Filler.any_isRun_fillParagraph hfill henc henc').1 hany
      exact ⟨before, inner, r, rest, after, henc, .inr htakes⟩
    · rintro ⟨before, inner, r, rest, after, henc, htakes⟩
      obtain ⟨before', between', after', henc'⟩ := henc.exists_of_nonRunsOf hnonRuns
      exact ⟨before', between', after', henc', (Filler.any_isRun_fillParagraph hfill henc henc').2
        ⟨inner, r, rest, rfl, htakes.resolve_left hdeferred⟩⟩

end Stage

/-! ## Where replacements come from -/

namespace Stage.Of

variable {s : Stage} {e : Engine} {f : Filler} {scope : Value} {doc : Document}
  {comment : CommentId} {paragraph : NodeId} {text : String} (h : s.Of e f scope doc)

include h

/-- A replacement of a word goes back to a comment of the plan that encloses text, and that starts
    in the paragraph. -/
theorem exists_region (hm : ⟨.words, .replaceWord paragraph comment text⟩ ∈ s.moves) :
    ∃ r ∈ (e.prepared doc).regions, r.id = comment ∧ r.start = paragraph ∧ r.enclosesText := by
  obtain ⟨handler, i, hhandler, hgives, -, haccept⟩ := h.traces.exists_of_mem_moves hm
  obtain rfl := Option.some.inj hhandler
  obtain ⟨htext, _, heq⟩ := WordReplacement.exists_of_accept haccept
  cases heq
  obtain ⟨calls, hentry, -⟩ := hgives.entry
  obtain ⟨p, around, -, hstart, hsite, -⟩ := hgives.paragraph
  exact ⟨i.site.region, (h.accounts.entries _ hentry).1, rfl, hstart.trans hsite.symm, htext⟩

/-- The number of the paragraph is one of the document that was visited. -/
theorem id_of_replaceWord (hm : ⟨.words, .replaceWord paragraph comment text⟩ ∈ s.moves) :
    0 < paragraph ∧ paragraph ≤ s.document.lastId := by
  obtain ⟨r, hr, -, rfl, -⟩ := h.exists_region hm
  obtain ⟨-, ⟨p, hp, -, hstart⟩, -⟩ := Document.region_spec hr
  obtain ⟨around, hp⟩ := Document.mem_paragraphs_iff_outline.1 hp
  rw [hstart]
  exact h.id_prepared hp

/-- If each anchor of the comment is there once, a run with text is between them. -/
theorem exists_text (hm : ⟨.words, .replaceWord paragraph comment text⟩ ∈ s.moves)
    (hstart : doc.anchors.count (.rangeStart comment) ≤ 1)
    (hend : doc.anchors.count (.rangeEnd comment) ≤ 1) {p : Paragraph}
    (hp : p ∈ (e.prepared doc).paragraphs) (hid : p.id = paragraph) :
    ∃ before between after r, Encloses comment p.content before between after ∧
      .run r ∈ between ∧ r.size ≠ 0 := by
  obtain ⟨r, hr, rfl, rfl, htext⟩ := h.exists_region hm
  rw [← Engine.anchors_prepared (e := e)] at hstart hend
  obtain ⟨q, hq, hidq, before, between, after, r', heq, hbefore, hbefore', hbetween, hmem, hsize⟩ :=
    Document.exists_of_enclosesText hr htext hstart hend
  obtain ⟨around, hp⟩ := Document.mem_paragraphs_iff_outline.1 hp
  obtain ⟨around', hq⟩ := Document.mem_paragraphs_iff_outline.1 hq
  have heqp := List.inj_on_of_nodup_map Engine.inOrder_prepared.nodup hp hq (hid.trans hidq)
  cases heqp
  exact ⟨before, between, after, r', ⟨heq, hbefore, hbefore', hbetween⟩, hmem, hsize⟩

end Stage.Of

/-! ## When replacements come -/

open Revision

namespace Stage

/-- A move other than the one at the place `k` replaces a word in the paragraph, the one of the
    comment `other`. -/
def ReplacesToo (s : Stage) (k : Nat) (paragraph : NodeId) (other : CommentId) : Prop :=
  ∃ j text, j ≠ k ∧ s.moves[j]? = some ⟨.words, .replaceWord paragraph other text⟩

/-- The move at the place `k`, from the draft `d` to `d'`, is to replace a word in a paragraph that
    is still there, and in which the ranges of all other words to replace are apart. -/
structure Replaces (s : Stage) (f : Filler) (k : Nat) (paragraph : NodeId) (comment : CommentId)
    (text : String) (d d' : Draft) (p : Paragraph) : Prop where
  stepsAt : StepsAt (Move.perform f) s.moves s.start k
    ⟨.words, .replaceWord paragraph comment text⟩ d d'
  found : d.document.paragraph? paragraph = some p
  apart : ∀ other, s.ReplacesToo k paragraph other → Inline.Apart comment other p.content

variable {s : Stage} {e : Engine} {f : Filler} {scope : Value} {doc : Document}
  {comment : CommentId} {paragraph : NodeId} {text : String} {k : Nat} {d d' : Draft}
  {p : Paragraph}

/-- What the moves before the replacement of a word leave of its paragraph. -/
theorem descends_spared
    (hk : StepsAt (Move.perform f) s.moves s.start k ⟨.words, .replaceWord paragraph comment text⟩
      d d') :
    s.document.Descends (Spared paragraph comment (s.ReplacesToo k paragraph)) s.document.lastId
      d.document := by
  refine Move.descends_spared_forM (fun m hm hfills => ?_) (fun other text' hm => ?_) (Nat.le_refl _)
    hk.before
  · have hle : m.pass.ctorIdx ≤ Pass.words.ctorIdx := Desks.pass_le_of_append hk.eq_append m hm
    rw [hfills] at hle
    exact absurd hle (by decide)
  · obtain ⟨j, hj, hget⟩ := List.mem_take_iff_getElem.1 hm
    refine ⟨j, text', by omega, ?_⟩
    rw [List.getElem?_eq_getElem (by omega), hget]

/-- When the replacement of a word comes to its paragraph, there is a run in the range of the
    comment if the visit left one. -/
theorem Of.enclosesRun_iff (h : s.Of e f scope doc)
    (hk : s.Replaces f k paragraph comment text d d' p) :
    ∃ p₀ ∈ (e.prepared doc).paragraphs, p₀.id = paragraph ∧
      (EnclosesRun comment p.content ↔ s.LeavesRun f scope comment p₀) := by
  obtain ⟨rfl, around, hp⟩ := Document.paragraph_mem_outline hk.found
  obtain ⟨hpos, hle⟩ := h.id_of_replaceWord hk.stepsAt.reaches.mem
  obtain ⟨x, hx, hbecomes⟩ :=
    (descends_spared hk.stepsAt).nodes.mem _ hp (Placed.isOriginal_iff.2 ⟨hpos, hle⟩)
  cases hbecomes with
  | @paragraph q _ _ hid hspared =>
    obtain ⟨p₀, hp₀, hid₀, hvisited⟩ := h.exists_visited hx
    refine ⟨p₀, Document.mem_paragraphs_iff_outline.2 ⟨_, hp₀⟩, hid₀.trans hid.symm, ?_⟩
    rw [← leavesRun_iff hvisited]
    exact hspared.enclosesRun_iff hid.symm fun other hother =>
      (hk.apart other hother).of_nonRunsOf (hspared.2 hid.symm).1.symm

/-- What a word was replaced by stays between the anchors in the moves that come next, up to the
    fillings of tables. -/
theorem Of.shows (h : s.Of e f scope doc) (hk : s.Replaces f k paragraph comment text d d' p)
    (hrewords : Rewords f paragraph comment text p d d') {next : List Move}
    (hnext : next <+: s.moves.drop (k + 1)) (hfills : ∀ m ∈ next, m.pass ≠ .fills) {d₁ : Draft}
    (hd₁ : (next.forM (Move.perform f)).Yields d' () d₁) {q : Paragraph}
    (hq : d₁.document.paragraph? paragraph = some q) :
    Shows comment (RunItem.breakLines f.settings.lineBreak text) q.content := by
  obtain ⟨hpos, hle⟩ := h.id_of_replaceWord hk.stepsAt.reaches.mem
  have hstart := descends_perform hk.stepsAt.reaches (descends_of_reaches hk.stepsAt.reaches)
    hk.stepsAt.yields
  have hspared : d'.document.Descends (Spared paragraph comment (s.ReplacesToo k paragraph))
      s.document.lastId d₁.document := by
    refine Move.descends_spared_forM hfills (fun other text' hm => ?_) hstart.lastId_le hd₁
    obtain ⟨j, hj⟩ := List.mem_iff_getElem?.1 (hnext.subset hm)
    rw [List.getElem?_drop] at hj
    exact ⟨k + 1 + j, text', by omega, hj⟩
  obtain ⟨p', around', hp', hid', hnonRuns, before, between, after, r, henc, hruns⟩ :=
    hrewords.exists_paragraph hk.found
  obtain ⟨rfl, around, hq⟩ := Document.paragraph_mem_outline hq
  obtain ⟨x, hx, hbecomes⟩ := hspared.nodes.mem _ hq (Placed.isOriginal_iff.2 ⟨hpos, hle⟩)
  cases hbecomes with
  | @paragraph p'' _ _ hid hsame =>
    have horiginal : 0 < p'.id ∧ p'.id ≤ s.document.lastId := hid'.symm ▸ ⟨hpos, hle⟩
    have heq := Placed.eq_of_id_eq (hstart.nodup_originalIds h.nodup_originalIds) hp' hx
      (Placed.isOriginal_iff.2 horiginal) (hid.symm.trans hid'.symm)
    cases heq
    obtain ⟨before', after', henc'⟩ := (hsame.2 hid').2 (fun other hother =>
      (hk.apart other hother).of_nonRunsOf hnonRuns) before between after henc
    exact ⟨before', between, after', r, henc', hruns⟩

end Stage

/-! ## Fillings -/

/-- The paragraph, the comment and the text, if the edit replaces a word. -/
def Edit.word? : Edit → Option (NodeId × CommentId × String)
  | .replaceWord paragraph comment text => some (paragraph, comment, text)
  | _ => none

/-- Moves that replace these words and do nothing else. -/
theorem Move.eq_of_words {moves : List Move} {l : List (NodeId × CommentId × String)}
    (h : moves.map (fun m => (m.pass, m.edit.word?)) = l.map fun w => (.words, some w)) :
    moves = l.map fun (paragraph, comment, text) =>
      ⟨.words, .replaceWord paragraph comment text⟩ := by
  induction moves generalizing l with
  | nil =>
    obtain rfl := List.map_eq_nil_iff.1 h.symm
    rfl
  | cons m moves ih =>
    obtain ⟨w, l, rfl, hw, hrest⟩ := List.map_eq_cons_iff.1 h.symm
    obtain ⟨pass, edit⟩ := m
    cases edit <;> cases hw
    rw [ih hrest.symm]
    rfl

namespace Engine

variable {e : Engine} {scope : Value} {doc doc' : Document} {report : Report}

/-- In a filling that succeeds, the report has the number of the words that are replaced. The
    replacement of a word was accepted as its comment encloses text before the visit. If its
    paragraph is still there, and the ranges of other words in it are apart, the word is replaced
    exactly if the visit leaves a run in its range; and the new text stays until tables are
    filled. -/
theorem word_replaced_iff (hregistry : e.registry = .builtin)
    (h : e.fill scope doc = .ok (doc', report)) :
    ∃ (f : Filler) (s : Stage) (places : List Nat), e.filler = .ok f ∧ s.Of e f scope doc ∧
      (∀ k, k ∈ places ↔ ∃ m d d', StepsAt (Move.perform f) s.moves s.start k m d d' ∧
        m.Rewords f d d') ∧
      places.Nodup ∧ report.wordsReplaced = UInt32.ofNat places.length ∧
      ∀ k paragraph comment text d d' p, s.Replaces f k paragraph comment text d d' p →
        ∃ p₀ ∈ (e.prepared doc).paragraphs, p₀.id = paragraph ∧
          (doc.anchors.count (.rangeStart comment) ≤ 1 →
            doc.anchors.count (.rangeEnd comment) ≤ 1 → ∃ before between after r,
              Encloses comment p₀.content before between after ∧ .run r ∈ between ∧ r.size ≠ 0) ∧
          (k ∈ places ↔ s.LeavesRun f scope comment p₀) ∧
          (k ∈ places → ∀ next d₁ q, next <+: s.moves.drop (k + 1) →
            (∀ m ∈ next, m.pass ≠ .fills) → (next.forM (Move.perform f)).Yields d' () d₁ →
              d₁.document.paragraph? paragraph = some q →
                Shows comment (RunItem.breakLines f.settings.lineBreak text) q.content) := by
  rw [fill_eq] at h
  obtain ⟨f, hf, h⟩ := Except.bind_eq_ok.1 h
  obtain ⟨s, hs, d₀, hyields, -, notes, rfl⟩ := exists_stage hregistry h
  obtain ⟨places, hnodup, hplaces, hcount⟩ := exists_counted Move.rewords_or_keeps hyields
  refine ⟨f, s, places, hf, hs, hplaces, hnodup, ?_, ?_⟩
  · obtain ⟨-, body, hvisit, -⟩ := hs.exists_visitAll
    have hnone : s.visit.report.wordsReplaced = 0 :=
      report_visitAll (fun _ _ _ => rfl) (fun _ _ => rfl) (fun _ _ => rfl) (fun _ _ => rfl) hvisit
    rw [show s.start.report.wordsReplaced = 0 from hnone, UInt32.zero_add] at hcount
    exact hcount
  intro k paragraph comment text d d' p hk
  obtain ⟨p₀, hp₀, hid, hruns⟩ := hs.enclosesRun_iff hk
  have hiff : k ∈ places ↔ Rewords f paragraph comment text p d d' := by
    rw [hplaces, ← Move.rewords_iff hk.found]
    constructor
    · rintro ⟨m, e, e', hk', hrewords⟩
      obtain ⟨rfl, rfl, rfl⟩ := hk.stepsAt.unique hk'
      exact hrewords
    · exact fun hrewords => ⟨_, d, d', hk.stepsAt, hrewords⟩
  refine ⟨p₀, hp₀, hid, ?_, ?_, ?_⟩
  · exact fun hstart hend => hs.exists_text hk.stepsAt.reaches.mem hstart hend hp₀ hid
  · rw [hiff, ← hruns, WordReplacement.rewords_iff hk.found hk.stepsAt.yields]
  · intro hmem next d₁ q hnext hfills hd₁ hq
    exact hs.shows hk (hiff.1 hmem) hnext hfills hd₁ hq

/-! ### Words around and inside placeholders -/

/-- A letter with two words in its only paragraph, the first of which is a placeholder. -/
def letterhead : Document where
  body := [.paragraph { content := [.rangeStart 1, .run (.ofText "$\x7bname\x7d"), .rangeEnd 1,
    .run (.ofText ", "), .rangeStart 2, .run (.ofText "city"), .rangeEnd 2] }]
  comments := [.ofText 1 "replaceWordWith('Ms ' + name)", .ofText 2 "replaceWordWith(city)"]

/-- What is filled in. -/
def letterheadData : Value :=
  .ofEntries [("name", .string "Ann"), ("city", .string "Rome")]

/-- The stage of its filling. -/
def stageOfLetterhead : Stage :=
  (({} : Engine).stage .standard letterheadData letterhead).toOption.get (by decide +kernel)

/-- The first comment is around its placeholder, and its word is replaced as well as the other. -/
theorem word_replaced_letterhead : ∃ doc' report,
    ({} : Engine).fill letterheadData letterhead = .ok (doc', report) ∧
      doc'.paragraphs.map Paragraph.text = ["Ms Ann, Rome"] ∧ report.wordsReplaced = 2 ∧
      ∃ (s : Stage) (places : List Nat), s.Of {} .standard letterheadData letterhead ∧
        report.wordsReplaced = UInt32.ofNat places.length ∧ 0 ∈ places := by
  obtain ⟨⟨doc', report⟩, hfill, htexts, hnumber⟩ : ∃ r,
      ({} : Engine).fill letterheadData letterhead = .ok r ∧
        r.1.paragraphs.map Paragraph.text = ["Ms Ann, Rome"] ∧ r.2.wordsReplaced = 2 :=
    Except.exists_of_toOption (by decide +kernel)
  obtain ⟨f, s, places, hf, hs, -, -, hcount, hwords⟩ := word_replaced_iff rfl hfill
  obtain rfl : f = .standard := (Except.ok.inj hf).symm
  have hstage : stageOfLetterhead.Of {} .standard letterheadData letterhead :=
    ⟨Except.eq_ok_get _, rfl⟩
  obtain rfl : s = stageOfLetterhead := Except.ok.inj (hs.stage.symm.trans hstage.stage)
  have hmoves : stageOfLetterhead.moves =
      [⟨.words, .replaceWord 1 1 "Ms Ann"⟩, ⟨.words, .replaceWord 1 2 "Rome"⟩] :=
    Move.eq_of_words (l := [(1, 1, "Ms Ann"), (1, 2, "Rome")]) (by decide +kernel)
  obtain ⟨d', hyields⟩ : ∃ d', (Move.perform .standard
      ⟨.words, .replaceWord 1 1 "Ms Ann"⟩).Yields stageOfLetterhead.start () d' :=
    ⟨_, Prod.ext (Except.eq_ok_of_toOption (by decide +kernel)) rfl⟩
  obtain ⟨p, hfound⟩ : ∃ p, stageOfLetterhead.document.paragraph? 1 = some p :=
    Option.isSome_iff_exists.1 (by decide +kernel)
  have hapart : ∀ p ∈ stageOfLetterhead.document.paragraph? 1, Inline.Apart 1 2 p.content := by
    decide +kernel
  have hreplaces : stageOfLetterhead.Replaces .standard 0 1 1 "Ms Ann" stageOfLetterhead.start d'
      p := by
    refine ⟨⟨by rw [hmoves]; rfl, yields_forM_nil.2 rfl, hyields⟩, hfound, ?_⟩
    rintro other ⟨j, text, hj, hget⟩
    rw [hmoves] at hget
    match j, hj, hget with
    | 1, _, rfl => exact hapart p hfound
  obtain ⟨p₀, hp₀, -, -, hiff, -⟩ := hwords _ _ _ _ _ _ _ hreplaces
  have hcontent : ∀ p ∈ (({} : Engine).prepared letterhead).paragraphs, p.content =
      [.rangeStart 1, .run (.ofText "$\x7bname\x7d"), .rangeEnd 1, .run (.ofText ", "),
        .rangeStart 2, .run (.ofText "city"), .rangeEnd 2] := by
    decide +kernel
  refine ⟨doc', report, hfill, htexts, hnumber, _, places, hs, hcount, hiff.2
    ⟨[], [], _, [], _, ⟨hcontent p₀ hp₀, by simp, by simp, by simp⟩, .inr ?_⟩⟩
  rintro ⟨ph, -, -, hstart, -⟩
  exact absurd hstart (Nat.not_lt_zero _)

/-- A name tag with a comment inside a placeholder. -/
def nameTag : Document where
  body := [.paragraph { content := [.run (.ofText "$\x7b"), .rangeStart 1, .run (.ofText "name"),
    .rangeEnd 1, .run (.ofText "\x7d")] }]
  comments := [.ofText 1 "replaceWordWith('X')"]

/-- The stage of its filling. -/
def stageOfNameTag : Stage :=
  (({} : Engine).stage .standard letterheadData nameTag).toOption.get (by decide +kernel)

/-- The placeholder takes the only run in the range of the comment with it, and the word is not
    replaced, though nothing else stands against it. -/
theorem word_lost_nameTag : nameTag.WellOrdered ∧ ∃ doc' report,
    ({} : Engine).fill letterheadData nameTag = .ok (doc', report) ∧
      doc'.paragraphs.map Paragraph.text = ["Ann"] ∧ report.directivesApplied = 1 ∧
      report.wordsReplaced = 0 ∧ ∃ (s : Stage) (d d' : Draft) (p : Paragraph),
        s.Of {} .standard letterheadData nameTag ∧ s.Replaces .standard 0 1 1 "X" d d' p ∧
          ¬ Rewords .standard 1 1 "X" p d d' := by
  have hmoves : stageOfNameTag.moves = [⟨.words, .replaceWord 1 1 "X"⟩] :=
    Move.eq_of_words (l := [(1, 1, "X")]) (by decide +kernel)
  have hyields : (Move.perform .standard ⟨.words, .replaceWord 1 1 "X"⟩).Yields
      stageOfNameTag.start () _ := Prod.ext (Except.eq_ok_of_toOption (by decide +kernel)) rfl
  have hfound : stageOfNameTag.document.paragraph? 1 = some _ :=
    (Option.some_get (by decide +kernel)).symm
  obtain ⟨⟨doc', report⟩, hfill, htexts, happlied, hnone⟩ : ∃ r,
      ({} : Engine).fill letterheadData nameTag = .ok r ∧ r.1.paragraphs.map Paragraph.text = ["Ann"] ∧
        r.2.directivesApplied = 1 ∧ r.2.wordsReplaced = 0 :=
    Except.exists_of_toOption (by decide +kernel)
  refine ⟨by decide +kernel, doc', report, hfill, htexts, happlied, hnone, stageOfNameTag, _, _, _,
    ⟨Except.eq_ok_get _, rfl⟩, ⟨⟨by rw [hmoves]; rfl, yields_forM_nil.2 rfl, hyields⟩, hfound, ?_⟩, ?_⟩
  · rintro other ⟨j, text, hj, hget⟩
    rw [hmoves] at hget
    match j, hj, hget with
    | 0, hj, _ => exact absurd rfl hj
  · exact fun hrewords => absurd hrewords.wordsReplaced (by decide +kernel)

end Engine

end DocTemplate
