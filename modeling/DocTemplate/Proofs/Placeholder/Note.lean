import DocTemplate.Proofs.Placeholder.Interchange

/-!
# References to notes

A reference to a note is an item of a run. The built-in renderers write texts and line breaks,
so filling the placeholders of a paragraph may drop a reference, one that is in a placeholder,
but brings none (`Filler.references_fillParagraph`). Nor does cutting a text at the literal for
line breaks (`Inline.references_mapRun_breakLines`).
-/

namespace DocTemplate

namespace RunItem

/-- Whether the item refers to a note. -/
def isReference : RunItem → Bool
  | footnote _ | endnote _ => true
  | _ => false

/-- Texts and line breaks do not refer to notes. -/
theorem isReference_of_mem_breakLines {literal : Option String} {s : String} :
    ∀ i ∈ breakLines literal s, i.isReference = false := by
  intro i hi
  rcases isText_or_of_mem_breakLines hi with htext | rfl
  · cases i with
    | text s => rfl
    | _ => cases htext
  · rfl

end RunItem

namespace Inline

/-- The references to notes in the runs of some items. -/
def references (items : List Inline) : List RunItem :=
  items.flatMap fun
    | .run r => r.content.filter RunItem.isReference
    | _ => []

variable {items items' : List Inline} {i : RunItem}

theorem mem_references_iff :
    i ∈ references items ↔ i.isReference ∧ ∃ r, .run r ∈ items ∧ i ∈ r.content := by
  rw [references, List.mem_flatMap]
  constructor
  · rintro ⟨item, hitem, hi⟩
    cases item with
    | run r =>
      obtain ⟨hi, href⟩ := List.mem_filter.1 hi
      exact ⟨href, r, hitem, hi⟩
    | _ => cases hi
  · rintro ⟨href, r, hr, hi⟩
    exact ⟨.run r, hr, List.mem_filter.2 ⟨hi, href⟩⟩

/-- Fewer items have fewer references. -/
theorem references_subset (h : items' ⊆ items) : references items' ⊆ references items := by
  intro i hi
  obtain ⟨href, r, hr, hi⟩ := mem_references_iff.1 hi
  exact mem_references_iff.2 ⟨href, r, h hr, hi⟩

end Inline

theorem Paragraph.mem_runItems_iff_references {p : Paragraph} {i : RunItem} (hi : i.isReference) :
    i ∈ p.runItems ↔ i ∈ Inline.references p.content := by
  rw [Inline.mem_references_iff, runItems, List.mem_flatMap, runs]
  constructor
  · rintro ⟨r, hr, h⟩
    obtain ⟨item, hitem, hrun⟩ := List.mem_filterMap.1 hr
    cases item <;> cases hrun
    exact ⟨hi, r, hitem, h⟩
  · rintro ⟨-, r, hr, h⟩
    exact ⟨r, List.mem_filterMap.2 ⟨_, hr, rfl⟩, h⟩

/-! ## Splices -/

/-- The references in the parts of some items are those of the items. -/
theorem Run.mem_of_mem_splitItems {bias : Bias} {n : Nat} {items : List RunItem} {i : RunItem}
    (hi : i.isReference)
    (h : i ∈ (splitItems bias n items).1 ∨ i ∈ (splitItems bias n items).2) : i ∈ items := by
  have htext : ∀ s, i ≠ .text s := by
    rintro s rfl
    cases hi
  fun_induction splitItems bias n items with
  | case1 => exact h.elim id id
  | case2 n s items hsize left right e ih =>
    simp only [e, List.mem_cons, htext, false_or] at h ih ⊢
    exact ih h
  | case3 s items hsize => exact h.elim (fun h => by cases h) id
  | case4 n s items hsize hn head tail e =>
    simp only [List.mem_cons, List.not_mem_nil, htext, false_or, or_false] at h ⊢
    exact h
  | case5 n item items hitem left right e hside ih =>
    simp only [e, List.mem_cons] at h ih ⊢
    rcases h with (h | h) | h
    · exact .inl h
    · exact .inr (ih (.inl h))
    · exact .inr (ih (.inr h))
  | case6 n item items hitem left right e hside ih =>
    simp only [e, List.mem_cons] at h ih ⊢
    rcases h with h | h | h
    · exact .inr (ih (.inl h))
    · exact .inl h
    · exact .inr (ih (.inr h))

theorem Run.mem_of_mem_splitAt {r : Run} {bias : Bias} {n : Nat} {i : RunItem}
    (hi : i.isReference) (h : i ∈ (r.splitAt n bias).1.content ∨ i ∈ (r.splitAt n bias).2.content) :
    i ∈ r.content :=
  mem_of_mem_splitItems hi h

namespace Paragraph

variable {items items' : List Inline} {start stop : Nat} {rendering : Rendering}

theorem mem_content_of_runUnlessEmpty {r r' : Run} (h : Inline.run r ∈ runUnlessEmpty r') :
    r = r' := by
  rw [runUnlessEmpty] at h
  split at h
  · cases h
  · exact Inline.run.inj (List.mem_singleton.1 h)

/-- The run of a rendering has the content of the rendering. -/
theorem content_rendered (covered : Run) (rendering : Rendering) :
    (rendered covered rendering).content = rendering.content := by
  cases rendering <;> rfl

/-- The pieces that a splice puts together, each with references that were there or none. -/
theorem references_pieces {before covered after : Run} {between : List Inline} {m n : Nat}
    (hbefore : ∀ i ∈ before.content, i.isReference → i ∈ Inline.references items)
    (hafter : ∀ i ∈ after.content, i.isReference → i ∈ Inline.references items)
    (hbetween : ∀ item ∈ between, item.isRun = false)
    (hrendering : ∀ i ∈ rendering.content, i.isReference = false) :
    Inline.references (items.take m ++ runUnlessEmpty before ++
        .run (rendered covered rendering) :: between ++ runUnlessEmpty after ++ items.drop n) ⊆
      Inline.references items := by
  intro i hi
  obtain ⟨href, r, hr, hi⟩ := Inline.mem_references_iff.1 hi
  simp only [List.mem_append, List.mem_cons, Inline.run.injEq] at hr
  rcases hr with (((hr | hr) | rfl | hr) | hr) | hr
  · exact Inline.mem_references_iff.2 ⟨href, r, List.mem_of_mem_take hr, hi⟩
  · exact hbefore i (mem_content_of_runUnlessEmpty hr ▸ hi) href
  · rw [content_rendered] at hi
    simp [hrendering i hi] at href
  · cases hbetween _ hr
  · exact hafter i (mem_content_of_runUnlessEmpty hr ▸ hi) href
  · exact Inline.mem_references_iff.2 ⟨href, r, List.mem_of_mem_drop hr, hi⟩

/-- A splice with a rendering that has no references brings none. -/
theorem references_splice? (h : splice? items start stop rendering = some items')
    (hrendering : ∀ i ∈ rendering.content, i.isReference = false) :
    Inline.references items' ⊆ Inline.references items := by
  rw [splice?] at h
  obtain ⟨first, -, h⟩ := Option.bind_eq_some_iff.1 h
  obtain ⟨last, -, h⟩ := Option.bind_eq_some_iff.1 h
  obtain ⟨head, hhead, h⟩ := Option.bind_eq_some_iff.1 h
  cases head with
  | run head =>
    obtain ⟨tail, htail, h⟩ := Option.bind_eq_some_iff.1 h
    cases tail with
    | run tail =>
      have hpart : ∀ r, .run r ∈ items → ∀ n bias i, i.isReference →
          i ∈ (r.splitAt n bias).1.content ∨ i ∈ (r.splitAt n bias).2.content →
            i ∈ Inline.references items := fun r hr n bias i href hi =>
        Inline.mem_references_iff.2 ⟨href, r, hr, Run.mem_of_mem_splitAt href hi⟩
      have hhead := List.mem_of_getElem? hhead
      have htail := List.mem_of_getElem? htail
      by_cases hindex : first.index = last.index
      · -- The run is split twice.
        simp only [if_pos hindex] at h
        cases h
        refine references_pieces (fun i hi href => ?_) (fun i hi href => ?_) (by simp) hrendering
        · exact hpart head hhead _ _ i href (.inl (Run.mem_of_mem_splitAt href (.inl hi)))
        · exact hpart head hhead _ _ i href (.inr hi)
      · simp only [if_neg hindex] at h
        cases h
        refine references_pieces (fun i hi href => ?_) (fun i hi href => ?_) (by simp) hrendering
        · exact hpart head hhead _ _ i href (.inl hi)
        · exact hpart tail htail _ _ i href (.inr hi)
    | _ => cases h
  | _ => cases h

end Paragraph

/-- Line breaks for a literal take no references away, and bring none. -/
theorem Inline.references_mapRun_breakLines (literal : Option String) (items : List Inline) :
    references (items.map (mapRun (Run.breakLines literal))) ⊆ references items := by
  intro i hi
  obtain ⟨href, r, hr, hi⟩ := mem_references_iff.1 hi
  obtain ⟨item, hitem, hr⟩ := List.mem_map.1 hr
  cases item <;> cases hr
  obtain ⟨item, hmem, hi⟩ := List.mem_flatMap.1 hi
  cases item with
  | text s => simp [RunItem.isReference_of_mem_breakLines i hi] at href
  | _ =>
    obtain rfl := List.mem_singleton.1 hi
    exact mem_references_iff.2 ⟨href, _, hitem, hmem⟩

/-! ## Fillings -/

/-- The built-in renderers write no references. -/
theorem Renderer.isReference_of_renderBy_builtin {settings : Settings} {raw : String} {v : Value}
    {rendering : Rendering} (h : renderBy builtin settings raw v = .ok rendering) :
    ∀ i ∈ rendering.content, i.isReference = false := by
  rcases cases_renderBy_builtin settings raw v with ⟨s, hs⟩ | ⟨s, hs⟩ | ⟨-, hs⟩ | ⟨-, hs⟩
  · cases hs.symm.trans h
    simp [Rendering.content, Rendering.ofText, RunItem.isReference]
  · cases hs.symm.trans h
    exact RunItem.isReference_of_mem_breakLines
  · cases hs.symm.trans h
  · cases hs.symm.trans h

namespace Filler

variable {f : Filler} {scope : Value}

/-- What takes the place of a placeholder has no references. -/
theorem isReference_of_rendering? (hf : f.renderers = Renderer.builtin) {ph : Placeholder}
    {rendering : Rendering} (h : f.rendering? scope ph = some rendering) :
    ∀ i ∈ rendering.content, i.isReference = false := by
  have htext : ∀ s, ∀ i ∈ (Rendering.ofText s).content, i.isReference = false := by
    simp [Rendering.content, Rendering.ofText, RunItem.isReference]
  rw [rendering?] at h
  split at h
  · next hr =>
    cases h
    obtain ⟨v, -, hr⟩ := Except.bind_eq_ok.1 hr
    rw [hf] at hr
    exact Renderer.isReference_of_renderBy_builtin hr
  · rw [recovery?] at h
    split at h
    · cases h
      exact htext _
    · split at h
      · cases h
        exact htext _
      · split at h <;> cases h

/-- A further placeholder brings no references. -/
theorem references_step (hf : f.renderers = Renderer.builtin) {text : String}
    {state next : Progress} {ph : Placeholder} (h : f.step scope text state ph = .ok next) :
    Inline.references next.content ⊆ Inline.references state.content := by
  rw [step] at h
  obtain ⟨⟨rendering, tally⟩, hr, h⟩ := Except.bind_eq_ok.1 h
  have hrendering := eq_rendering?_of_replacement hr
  cases h
  cases rendering with
  | none => exact List.Subset.refl _
  | some rendering =>
    simp only [Option.elim_some, Progress.splice]
    split
    · exact List.Subset.refl _
    · next content hsplice =>
      exact Paragraph.references_splice? hsplice (isReference_of_rendering? hf hrendering.symm)

/-- Filling the placeholders of a paragraph brings no references to notes. -/
theorem references_fillParagraph (hf : f.renderers = Renderer.builtin) {p q : Paragraph}
    {tally : Tally} (h : f.fillParagraph scope p = .ok (q, tally)) :
    Inline.references q.content ⊆ Inline.references p.content := by
  rw [fillParagraph] at h
  obtain ⟨state, hsteps, h⟩ := Except.bind_eq_ok.1 h
  have hstate : Inline.references state.content ⊆ Inline.references p.content :=
    Except.foldlM_induction
      (P := fun state : Progress => Inline.references state.content ⊆ Inline.references p.content)
      (fun _ _ _ hb hstep => List.Subset.trans (references_step hf hstep) hb) (List.Subset.refl _)
      hsteps
  cases h
  exact List.Subset.trans (Inline.references_mapRun_breakLines _ _) hstate

end Filler

end DocTemplate
