import DocTemplate.Directive.WordReplacement
import DocTemplate.Proofs.Document.Glyph
import DocTemplate.Proofs.Pointwise

/-!
# Replacing words among glyphs

The replacement of a word looks at the items between the anchors of a comment: whether there is
a run, and what style the first one has. Both can be told from the glyphs with their heads, so
the replacement is the same for items with the same glyphs.

* `WordReplacement.Encloses`: the items between the anchors;
* `WordReplacement.headedGlyphsOf_replaceRuns`: what becomes of their glyphs;
* `WordReplacement.rel_replaceBetween?`: the replacements for items with the same glyphs.
-/

namespace DocTemplate

namespace Inline

theorem anchor_mem_headedGlyphsOf_iff {a : Inline} (ha : a.commentId?.isSome) (opened : Bool)
    (items : List Inline) : .anchor a ∈ headedGlyphsOf opened items ↔ a ∈ items := by
  constructor
  · intro h
    obtain ⟨pre, post, h⟩ := List.append_of_mem h
    obtain ⟨before, after, rfl, -⟩ := exists_item_of_anchor h
    simp
  · intro h
    obtain ⟨before, after, rfl⟩ := List.append_of_mem h
    rw [headedGlyphsOf_append, headedGlyphsOf_anchor ha]
    simp

/-- There is a run among some items that come after an anchor if a head is seen. -/
theorem any_isRun_eq (items : List Inline) :
    items.any isRun = (headedGlyphsOf false items).any Glyph.isHead := by
  induction items with
  | nil => rfl
  | cons item items ih =>
    cases item with
    | run r => rfl
    | proof mark => exact ih
    | _ => exact ih

theorem filter_anchor?_glyphs (r : Run) : r.glyphs.filter (fun g => g.anchor?.isSome) = [] := by
  refine List.filter_eq_nil_iff.2 fun g hg => ?_
  rw [RunItem.anchor?_of_mem_glyphsOf hg]
  simp

/-- Without runs, only anchors are seen. -/
theorem headedGlyphsOf_filter_not_isRun_eq (opened opened' : Bool) (items : List Inline) :
    headedGlyphsOf opened (items.filter fun item => !item.isRun) =
      (headedGlyphsOf opened' items).filter fun g => g.anchor?.isSome := by
  induction items generalizing opened opened' with
  | nil => rfl
  | cons item items ih =>
    cases item with
    | run r =>
      have hhead : (r.head opened').filter (fun g => g.anchor?.isSome) = [] := by
        cases opened' <;> rfl
      rw [headedGlyphsOf_run, List.filter_append, List.filter_append, hhead, filter_anchor?_glyphs]
      exact ih opened true
    | proof mark => exact ih opened opened'
    | _ => exact congrArg (_ :: ·) (ih false false)

end Inline

namespace WordReplacement

/-! ## Runs -/

/-- The glyphs with other content in the first run, and without the other runs. -/
def replaceGlyphs (content : List RunItem) : List Glyph → List Glyph
  | [] => []
  | .head style :: gs =>
    .head style :: RunItem.glyphsOf style content ++ gs.filter fun g => g.anchor?.isSome
  | g :: gs => g :: replaceGlyphs content gs

theorem headedGlyphsOf_replaceRuns (content : List RunItem) (items : List Inline) :
    Inline.headedGlyphsOf false (replaceRuns content items) =
      replaceGlyphs content (Inline.headedGlyphsOf false items) := by
  induction items with
  | nil => rfl
  | cons item items ih =>
    cases item with
    | run r =>
      rw [replaceRuns, Inline.headedGlyphsOf_run, Inline.headedGlyphsOf_filter_not_isRun_eq true true]
      change _ = .head r.style.withoutLang :: RunItem.glyphsOf r.style.withoutLang content ++
        (r.glyphs ++ Inline.headedGlyphsOf true items).filter _
      rw [List.filter_append, Inline.filter_anchor?_glyphs]
      rfl
    | proof mark => exact ih
    | _ => exact congrArg (_ :: ·) ih

/-! ## Anchors -/

/-- The items are those before the first anchors of a comment, those between the two, and those
    after them. -/
structure Encloses (comment : CommentId) (items before between after : List Inline) : Prop where
  eq : items = before ++ .rangeStart comment :: (between ++ .rangeEnd comment :: after)
  start_before : .rangeStart comment ∉ before
  end_before : .rangeEnd comment ∉ before
  end_between : .rangeEnd comment ∉ between

variable {comment : CommentId} {items items' before between after : List Inline}
  {content : List RunItem}

theorem findIdx?_eq {a : Inline} {as : List Inline} (h : a ∉ as) (bs : List Inline) :
    (as ++ a :: bs).findIdx? (· = a) = some as.length := by
  have hnone : as.findIdx? (· = a) = none := by
    refine List.findIdx?_eq_none_iff.2 fun b hb => ?_
    simp only [decide_eq_false_iff_not]
    rintro rfl
    exact h hb
  simp [List.findIdx?_append, hnone, List.findIdx?_cons]

theorem Encloses.replaceBetween?_eq (h : Encloses comment items before between after) :
    replaceBetween? comment content items =
      if between.any Inline.isRun then
        some (before ++ .rangeStart comment :: (replaceRuns content between ++
          .rangeEnd comment :: after))
      else none := by
  have hstart : items.findIdx? (· = .rangeStart comment) = some before.length := by
    rw [h.eq]
    exact findIdx?_eq h.start_before _
  have hstop : items.findIdx? (· = .rangeEnd comment) =
      some (before ++ .rangeStart comment :: between).length := by
    rw [h.eq, ← List.cons_append, ← List.append_assoc]
    refine findIdx?_eq ?_ _
    simp [h.end_before, h.end_between]
  have htake : items.take (before ++ .rangeStart comment :: between).length =
      before ++ .rangeStart comment :: between := by
    rw [h.eq, ← List.cons_append, ← List.append_assoc]
    exact List.take_left' rfl
  have hdrop : items.drop (before ++ .rangeStart comment :: between).length =
      .rangeEnd comment :: after := by
    rw [h.eq, ← List.cons_append, ← List.append_assoc]
    exact List.drop_left' rfl
  have hbefore : items.take (before.length + 1) = before ++ [.rangeStart comment] := by
    rw [h.eq, List.append_cons]
    exact List.take_left' (by simp)
  have hbetween : (before ++ .rangeStart comment :: between).drop (before.length + 1) = between := by
    rw [List.append_cons]
    exact List.drop_left' (by simp)
  simp only [replaceBetween?, hstart, hstop, Option.bind_eq_bind, Option.bind_some, htake, hdrop,
    hbefore, hbetween]
  simp

theorem exists_encloses {out : List Inline} (h : replaceBetween? comment content items = some out) :
    ∃ before between after, Encloses comment items before between after := by
  obtain ⟨i, hi, h⟩ := Option.bind_eq_some_iff.1 h
  obtain ⟨j, hj, h⟩ := Option.bind_eq_some_iff.1 h
  have hmem : ∀ {a : Inline} {k : Nat}, items.findIdx? (· = a) = some k → a ∈ items := by
    intro a k hk
    have hany : items.any (· = a) := by
      rw [← List.findIdx?_isSome, hk]
      rfl
    simpa using hany
  obtain ⟨before, rest, hitems, hbefore⟩ := List.eq_append_cons_of_mem (hmem hi)
  obtain rfl : before.length = i := by
    rw [hitems, findIdx?_eq hbefore] at hi
    exact Option.some.inj hi
  by_cases hend : .rangeEnd comment ∈ before
  · -- The range would end before it starts.
    obtain ⟨front, back, rfl, hfront⟩ := List.eq_append_cons_of_mem hend
    rw [hitems, List.append_assoc, List.cons_append, findIdx?_eq hfront] at hj
    obtain rfl := Option.some.inj hj
    have hnil : (items.take front.length).drop ((front ++ .rangeEnd comment :: back).length + 1) =
        [] := by
      refine List.drop_eq_nil_of_le (Nat.le_trans (List.length_take_le _ _) ?_)
      rw [List.length_append]
      omega
    rw [hnil] at h
    cases h
  · have hmemEnd : .rangeEnd comment ∈ rest := by
      have hmemEnd := hmem hj
      rw [hitems] at hmemEnd
      simpa [hend] using hmemEnd
    obtain ⟨between, after, rfl, hbetween⟩ := List.eq_append_cons_of_mem hmemEnd
    exact ⟨before, between, after, hitems, hbefore, hend, hbetween⟩

/-- Items with the same glyphs have the same anchors. -/
theorem Encloses.exists_encloses (h : Encloses comment items before between after)
    (hglyphs : Inline.headedGlyphsOf false items' = Inline.headedGlyphsOf false items) :
    ∃ before' between' after', Encloses comment items' before' between' after' ∧
      Inline.headedGlyphsOf false before' = Inline.headedGlyphsOf false before ∧
      Inline.headedGlyphsOf false between' = Inline.headedGlyphsOf false between ∧
      Inline.headedGlyphsOf false after' = Inline.headedGlyphsOf false after := by
  rw [h.eq, Inline.headedGlyphsOf_append, Inline.headedGlyphsOf_anchor rfl,
    Inline.headedGlyphsOf_append, Inline.headedGlyphsOf_anchor rfl] at hglyphs
  obtain ⟨before', rest, rfl, -, hbefore, hrest⟩ := Inline.exists_item_of_anchor hglyphs
  obtain ⟨between', after', rfl, -, hbetween, hafter⟩ := Inline.exists_item_of_anchor hrest.symm
  have hmem : ∀ {a : Inline} {items items' : List Inline}, a.commentId?.isSome →
      Inline.headedGlyphsOf false items = Inline.headedGlyphsOf false items' →
        a ∉ items → a ∉ items' := by
    intro a items items' ha heq
    rw [← Inline.anchor_mem_headedGlyphsOf_iff ha false, heq, Inline.anchor_mem_headedGlyphsOf_iff ha]
    exact fun h => h
  exact ⟨before', between', after', ⟨rfl, hmem rfl hbefore h.start_before,
    hmem rfl hbefore h.end_before, hmem rfl hbetween h.end_between⟩, hbefore.symm, hbetween.symm,
    hafter.symm⟩

/-- The replacements for items with the same glyphs. -/
theorem rel_replaceBetween?
    (h : Inline.headedGlyphsOf false items' = Inline.headedGlyphsOf false items) :
    Option.Rel (fun out out' => Inline.headedGlyphsOf false out' = Inline.headedGlyphsOf false out)
      (replaceBetween? comment content items) (replaceBetween? comment content items') := by
  by_cases hencloses : ∃ before between after, Encloses comment items before between after
  · obtain ⟨before, between, after, henc⟩ := hencloses
    obtain ⟨before', between', after', henc', hbefore, hbetween, hafter⟩ := henc.exists_encloses h
    rw [henc.replaceBetween?_eq, henc'.replaceBetween?_eq, Inline.any_isRun_eq, Inline.any_isRun_eq,
      hbetween]
    split
    · refine .some ?_
      have hglyphs : ∀ before between after : List Inline,
          Inline.headedGlyphsOf false (before ++ .rangeStart comment ::
            (replaceRuns content between ++ .rangeEnd comment :: after)) =
          Inline.headedGlyphsOf false before ++ .anchor (.rangeStart comment) ::
            (replaceGlyphs content (Inline.headedGlyphsOf false between) ++
              .anchor (.rangeEnd comment) :: Inline.headedGlyphsOf false after) := by
        intro before between after
        rw [Inline.headedGlyphsOf_append, Inline.headedGlyphsOf_anchor rfl,
          Inline.headedGlyphsOf_append, Inline.headedGlyphsOf_anchor rfl, headedGlyphsOf_replaceRuns]
      rw [hglyphs, hglyphs, hbefore, hbetween, hafter]
    · exact .none
  · have hnone : ∀ {items : List Inline},
        (¬ ∃ before between after, Encloses comment items before between after) →
          replaceBetween? comment content items = none := fun hne =>
      Option.eq_none_iff_forall_ne_some.2 fun _ hout => hne (exists_encloses hout)
    have hencloses' : ¬ ∃ before between after, Encloses comment items' before between after := by
      rintro ⟨before', between', after', henc'⟩
      obtain ⟨before, between, after, henc, -⟩ := henc'.exists_encloses h.symm
      exact hencloses ⟨before, between, after, henc⟩
    rw [hnone hencloses, hnone hencloses']
    exact .none

end WordReplacement

end DocTemplate
