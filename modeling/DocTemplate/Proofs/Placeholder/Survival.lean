import DocTemplate.Proofs.Placeholder.Exact

/-!
# What survives a filling

Every glyph of a paragraph that was filled has a *source*: an offset of the text that the
paragraph had at first, or the rendering of a placeholder. A placeholder sorts them by their
side: what is before it, in it, and after it. A character is in a placeholder if it is one of
its text. Anything else is so if it is strictly inside, for at the ends of the placeholder it
stays where it is.

A filling takes the first text apart into the placeholders and what is between them, and
gives each of these pieces or what it is replaced by, one after the other (`Glyph.Filled`).

* `Glyph.exists_filled`: the placeholders that are found take any glyphs of the text apart;
* `Filler.Progress.Tracks.foldlM`: the replacements leave what that relation says;
* `Glyph.Filled.survival`: what that is, by the sides of the placeholders;
* `Filler.survival_fillParagraph`: without a literal for line breaks, all that is in no
  placeholder which is replaced survives in its order, and so does what is in no run, which
  comes directly after a rendering if it was strictly inside the placeholder.
-/

namespace DocTemplate

namespace Glyph

/-- Where a glyph of a filled paragraph is from. -/
inductive Source where
  /-- The paragraph, at a byte offset of its text. -/
  | original (offset : Nat)
  /-- The rendering of a placeholder. -/
  | rendered (p : Placeholder)
  deriving DecidableEq

/-- Whether the glyph was in the paragraph at first. -/
def Source.isOriginal : Source → Bool
  | original _ => true
  | rendered _ => false

/-- The glyphs of a paragraph with their sources, if the text before them has `offset` bytes. -/
def placed : (offset : Nat) → List Glyph → List (Source × Glyph)
  | _, [] => []
  | offset, g :: gs => (.original offset, g) :: placed (offset + width [g]) gs

end Glyph

/-- Whether a glyph is before, in or after a placeholder. A character is in it from its start
    on, and anything else if it is strictly inside. -/
def Placeholder.side (p : Placeholder) : Glyph.Source × Glyph → Ordering
  | (.original n, g) =>
    if p.stop ≤ n then .gt
    else if p.start < n ∨ p.start = n ∧ g.char?.isSome then .eq
    else .lt
  | (.rendered q, _) => compare q.start p.start

namespace Glyph

/-- Whether a glyph of the paragraph is to stay: it is in no run, or it is in none of the
    placeholders that are replaced. -/
def survives (replace : Placeholder → Option Rendering) (ps : List Placeholder)
    (x : Source × Glyph) : Bool :=
  x.2.isAnchor || ps.all fun p => (replace p).isNone || p.side x != .eq

/-- What becomes of the glyphs of a text that starts at `offset` if some of its placeholders
    are replaced. -/
structure Survival (replace : Placeholder → Option Rendering) (offset : Nat)
    (ps : List Placeholder) (gs : List Glyph) (out : List (Source × Glyph)) : Prop where
  /-- Of the glyphs that were there, those that are to stay do, once and in their order. -/
  kept : out.filter (fun x => x.1.isOriginal) = (placed offset gs).filter (survives replace ps)
  /-- The others are those of the renderings. -/
  brought : ∀ p g, (.rendered p, g) ∈ out → p ∈ ps ∧ (replace p).isSome
  /-- A rendering stands between what is before its placeholder and what is after it, in the
      style of the first character of the placeholder. What is strictly inside the placeholder
      and in no run comes directly after it. -/
  inserted : ∀ p ∈ ps, ∀ r ∈ replace p, ∃ c style before after,
    (.original p.start, .char c style) ∈ placed offset gs ∧
    out = before ++ (r.glyphs style).map (fun g => (.rendered p, g)) ++
      (placed offset gs).filter (fun x => x.2.isAnchor && p.side x == .eq) ++ after ∧
    (∀ x ∈ before, p.side x = .lt) ∧ ∀ x ∈ after, p.side x = .gt

/-! ## Glyphs with sources -/

section Placed

variable {offset : Nat} {gs : List Glyph} {x : Source × Glyph}

theorem placed_append (offset : Nat) (gs hs : List Glyph) :
    placed offset (gs ++ hs) = placed offset gs ++ placed (offset + width gs) hs := by
  induction gs generalizing offset with
  | nil => rfl
  | cons g gs ih =>
    rw [List.cons_append, placed, ih, placed, List.cons_append, Nat.add_assoc, ← width_append]
    rfl

@[simp] theorem map_snd_placed (offset : Nat) (gs : List Glyph) :
    (placed offset gs).map Prod.snd = gs := by
  induction gs generalizing offset with
  | nil => rfl
  | cons g gs ih => rw [placed, List.map_cons, ih]

theorem map_snd_filter_placed (offset : Nat) (gs : List Glyph) :
    ((placed offset gs).filter fun x => x.2.isAnchor).map Prod.snd = gs.filter isAnchor := by
  conv_rhs => rw [← map_snd_placed offset gs, List.filter_map]
  rfl

/-- The offset of a glyph is the width of what is before it. -/
theorem mem_placed_iff : x ∈ placed offset gs ↔
    ∃ front g back, gs = front ++ g :: back ∧ x = (.original (offset + width front), g) := by
  induction gs generalizing offset with
  | nil => simp [placed]
  | cons g gs ih =>
    have hcons : ∀ front, offset + width [g] + width front = offset + width (g :: front) :=
      fun front => by rw [Nat.add_assoc, ← width_append, List.singleton_append]
    rw [placed, List.mem_cons, ih]
    constructor
    · rintro (rfl | ⟨front, g', back, rfl, rfl⟩)
      · exact ⟨[], g, gs, rfl, rfl⟩
      · exact ⟨g :: front, g', back, rfl, by rw [hcons]⟩
    · rintro ⟨_ | ⟨g', front⟩, g'', back, hgs, rfl⟩
      · obtain ⟨rfl, rfl⟩ := List.cons_eq_cons.1 hgs
        exact .inl rfl
      · obtain ⟨rfl, rfl⟩ := List.cons_eq_cons.1 hgs
        exact .inr ⟨front, g'', back, rfl, by rw [hcons]⟩

theorem rendered_not_mem_placed (p : Placeholder) (g : Glyph) : (.rendered p, g) ∉ placed offset gs := by
  intro hg
  obtain ⟨_, _, _, -, heq⟩ := mem_placed_iff.1 hg
  cases heq

theorem filter_isOriginal_placed (offset : Nat) (gs : List Glyph) :
    (placed offset gs).filter (fun x => x.1.isOriginal) = placed offset gs := by
  refine List.filter_eq_self.2 fun x hx => ?_
  obtain ⟨front, g, back, -, rfl⟩ := mem_placed_iff.1 hx
  rfl

end Placed

end Glyph

namespace Placeholder

variable {p : Placeholder} {offset : Nat} {gs : List Glyph} {x : Glyph.Source × Glyph}

/-- What ends before a placeholder is before it. -/
theorem side_eq_lt (hx : x ∈ Glyph.placed offset gs) (hp : offset + Glyph.width gs ≤ p.start)
    (hne : p.start < p.stop) : p.side x = .lt := by
  obtain ⟨front, g, back, rfl, rfl⟩ := Glyph.mem_placed_iff.1 hx
  rw [Glyph.width_append, Glyph.width_cons] at hp
  rw [side, if_neg (by omega), if_neg]
  rintro (hlt | ⟨hstart, hchar⟩)
  · omega
  · have := Glyph.width_pos_of_isSome hchar
    omega

/-- What starts after a placeholder is after it. -/
theorem side_eq_gt (hx : x ∈ Glyph.placed offset gs) (hp : p.stop ≤ offset) : p.side x = .gt := by
  obtain ⟨front, g, back, -, rfl⟩ := Glyph.mem_placed_iff.1 hx
  rw [side, if_pos (by omega)]

/-- What is between the first and the last character of a placeholder is in it. -/
theorem side_eq_eq (hx : x ∈ Glyph.placed p.start gs) (hgs : Glyph.IsSpan gs)
    (hstop : p.stop = p.start + Glyph.width gs) : p.side x = .eq := by
  obtain ⟨front, g, back, rfl, rfl⟩ := Glyph.mem_placed_iff.1 hx
  rw [Glyph.width_append, Glyph.width_cons] at hstop
  cases hg : g.char? with
  | none =>
    obtain ⟨hfront, hback⟩ := hgs.width_pos_around hg
    rw [side, if_neg (by omega), if_pos (.inl (by omega))]
  | some c =>
    have hchar : g.char?.isSome := by rw [hg]; rfl
    have := Glyph.width_pos_of_isSome hchar
    rw [side, if_neg (by omega), if_pos]
    rcases Nat.eq_zero_or_pos (Glyph.width front) with hzero | hpos
    · exact .inr ⟨by omega, hchar⟩
    · exact .inl (by omega)

end Placeholder

/-! ## What a filling does -/

namespace Glyph

variable {replace : Placeholder → Option Rendering} {offset : Nat} {p : Placeholder}
  {ps : List Placeholder} {gs before piece after : List Glyph} {out : List (Source × Glyph)}

/-- What becomes of a piece of the text that is a placeholder. -/
def filledPiece (replace : Placeholder → Option Rendering) (p : Placeholder) (piece : List Glyph) :
    List (Source × Glyph) :=
  match replace p with
  | none => placed p.start piece
  | some r =>
    (r.glyphs (styleOf piece)).map (fun g => (.rendered p, g)) ++
      (placed p.start piece).filter fun x => x.2.isAnchor

/-- What becomes of a text that starts at `offset` if some of its placeholders are replaced,
    piece by piece. -/
inductive Filled (replace : Placeholder → Option Rendering) :
    (offset : Nat) → List Placeholder → List Glyph → List (Source × Glyph) → Prop
  | nil {offset : Nat} {gs : List Glyph} : Filled replace offset [] gs (placed offset gs)
  | cons {offset : Nat} {p : Placeholder} {ps : List Placeholder} {before piece after : List Glyph}
      {out : List (Source × Glyph)} (hpiece : IsSpan piece) (hstart : p.start = offset + width before)
      (hstop : p.stop = p.start + width piece) (h : Filled replace p.stop ps after out) :
      Filled replace offset (p :: ps) (before ++ piece ++ after)
        (placed offset before ++ filledPiece replace p piece ++ out)

theorem placed_pieces (hstart : p.start = offset + width before)
    (hstop : p.stop = p.start + width piece) :
    placed offset (before ++ piece ++ after) =
      placed offset before ++ placed p.start piece ++ placed p.stop after := by
  rw [placed_append, placed_append, width_append, ← Nat.add_assoc, ← hstart, ← hstop]

/-- The placeholders that are found in a text take its glyphs apart. -/
theorem exists_filled {cs : List StyledChar} (h : Placeholder.Occur offset ps cs)
    (hgs : charsOf gs = cs.map Prod.fst) : ∃ out, Filled replace offset ps gs out := by
  induction h generalizing gs with
  | nil => exact ⟨_, .nil⟩
  | @cons offset p ps before piece after hp hstart hstop _ ih =>
    rw [List.map_append, List.map_append] at hgs
    obtain ⟨before', piece', after', rfl, hbefore, hpiece, hafter, hspan⟩ :=
      exists_isSpan_of_charsOf hgs (by simpa using hp)
    obtain ⟨out, hout⟩ := ih hafter
    refine ⟨_, .cons hspan ?_ ?_ hout⟩
    · rw [hstart, width_eq_of_charsOf hbefore]
    · rw [hstop, width_eq_of_charsOf hpiece]

theorem mem_placed_or_of_mem_filledPiece {x : Source × Glyph}
    (hx : x ∈ filledPiece replace p piece) :
    x ∈ placed p.start piece ∨ (replace p).isSome ∧ x.1 = .rendered p := by
  rw [filledPiece] at hx
  split at hx
  · exact .inl hx
  · next r hr =>
    rcases List.mem_append.1 hx with hx | hx
    · obtain ⟨g, -, rfl⟩ := List.mem_map.1 hx
      exact .inr ⟨by rw [hr]; rfl, rfl⟩
    · exact .inl (List.mem_filter.1 hx).1

theorem survives_of_side_eq_lt {x : Source × Glyph} (h : ∀ q ∈ ps, q.side x = .lt) :
    survives replace ps x = true := by
  simp only [survives, Bool.or_eq_true, List.all_eq_true, bne_iff_ne]
  refine .inr fun q hq => .inr ?_
  rw [h q hq]
  nofun

theorem filter_inside_eq_nil {xs : List (Source × Glyph)} (h : ∀ x ∈ xs, p.side x ≠ .eq) :
    xs.filter (fun x => x.2.isAnchor && p.side x == .eq) = [] :=
  List.filter_eq_nil_iff.2 fun x hx => by simp [h x hx]

namespace Filled

theorem bounds (h : Filled replace offset ps gs out) :
    ∀ q ∈ ps, offset ≤ q.start ∧ q.start < q.stop := by
  induction h with
  | nil => nofun
  | cons hpiece hstart hstop _ ih =>
    have := hpiece.width_pos
    intro q hq
    rcases List.mem_cons.1 hq with rfl | hq
    · omega
    · have := ih q hq
      omega

/-- What ends before a text is before the placeholders in it. -/
theorem side_eq_lt (h : Filled replace offset ps gs out) {start : Nat} {hs : List Glyph}
    (hstart : start + width hs ≤ offset) {x : Source × Glyph} (hx : x ∈ placed start hs) :
    ∀ q ∈ ps, q.side x = .lt := by
  intro q hq
  obtain ⟨hle, hne⟩ := h.bounds q hq
  exact Placeholder.side_eq_lt hx (Nat.le_trans hstart hle) hne

/-- What becomes of a text is after the placeholders before it. -/
theorem side_eq_gt (h : Filled replace offset ps gs out) {q : Placeholder} (hq : q.stop ≤ offset)
    (hne : q.start < q.stop) : ∀ x ∈ out, q.side x = .gt := by
  induction h with
  | nil => exact fun x hx => Placeholder.side_eq_gt hx hq
  | @cons offset p ps before piece after out hpiece hstart hstop _ ih =>
    intro x hx
    rcases List.mem_append.1 hx with hx | hx
    · rcases List.mem_append.1 hx with hx | hx
      · exact Placeholder.side_eq_gt hx hq
      · rcases mem_placed_or_of_mem_filledPiece hx with hx | ⟨-, hsource⟩
        · exact Placeholder.side_eq_gt hx (by omega)
        · obtain ⟨_, g⟩ := x
          cases hsource
          exact Nat.compare_eq_gt.2 (by omega)
    · exact ih (by omega) x hx

/-- What becomes of a placeholder is before those after it. -/
theorem side_filledPiece_eq_lt (h : Filled replace p.stop ps gs out)
    (hstop : p.stop = p.start + width piece) (hp : p.start < p.stop) {x : Source × Glyph}
    (hx : x ∈ filledPiece replace p piece) : ∀ q ∈ ps, q.side x = .lt := by
  rcases mem_placed_or_of_mem_filledPiece hx with hx | ⟨-, hsource⟩
  · exact h.side_eq_lt (by omega) hx
  · intro q hq
    obtain ⟨hle, -⟩ := h.bounds q hq
    obtain ⟨_, g⟩ := x
    cases hsource
    exact Nat.compare_eq_lt.2 (by omega)

/-- What of a placeholder stays. -/
theorem filter_filledPiece (hpiece : ∀ x ∈ placed p.start piece, p.side x = .eq)
    (hps : ∀ x ∈ placed p.start piece, ∀ q ∈ ps, q.side x = .lt) :
    (filledPiece replace p piece).filter (fun x => x.1.isOriginal) =
      (placed p.start piece).filter (survives replace (p :: ps)) := by
  have hsurvives : ∀ x ∈ placed p.start piece,
      survives replace (p :: ps) x = (x.2.isAnchor || (replace p).isNone) := by
    intro x hx
    have hrest : survives replace ps x = true := survives_of_side_eq_lt (hps x hx)
    simp only [survives, Bool.or_eq_true] at hrest
    rcases hrest with hanchor | hall
    · simp [survives, hanchor]
    · simp [survives, hall, hpiece x hx]
  rw [List.filter_congr hsurvives, filledPiece]
  cases replace p with
  | none => simpa using filter_isOriginal_placed p.start piece
  | some r =>
    have hrendered : ((r.glyphs (styleOf piece)).map fun g => (Source.rendered p, g)).filter
        (fun x => x.1.isOriginal) = [] := by
      refine List.filter_eq_nil_iff.2 fun x hx => ?_
      obtain ⟨g, -, rfl⟩ := List.mem_map.1 hx
      nofun
    have hanchors : ((placed p.start piece).filter fun x => x.2.isAnchor).filter
        (fun x => x.1.isOriginal) = (placed p.start piece).filter fun x => x.2.isAnchor := by
      rw [List.filter_comm, filter_isOriginal_placed]
    simp [hrendered, hanchors]

theorem filter_isOriginal (h : Filled replace offset ps gs out) :
    out.filter (fun x => x.1.isOriginal) = (placed offset gs).filter (survives replace ps) := by
  induction h with
  | nil =>
    rw [filter_isOriginal_placed, List.filter_eq_self.2 fun x _ =>
      survives_of_side_eq_lt fun q hq => absurd hq List.not_mem_nil]
  | @cons offset p ps before piece after out hpiece hstart hstop h ih =>
    have hp : p.start < p.stop := by
      have := hpiece.width_pos
      omega
    -- What is before the piece is in no placeholder, and what is after it is not in this one.
    have hbefore : (placed offset before).filter (survives replace (p :: ps)) =
        placed offset before := by
      refine List.filter_eq_self.2 fun x hx => survives_of_side_eq_lt fun q hq => ?_
      rcases List.mem_cons.1 hq with rfl | hq
      · exact Placeholder.side_eq_lt hx (by omega) hp
      · exact h.side_eq_lt (by omega) hx q hq
    have hin : (filledPiece replace p piece).filter (fun x => x.1.isOriginal) =
        (placed p.start piece).filter (survives replace (p :: ps)) :=
      filter_filledPiece (fun x hx => Placeholder.side_eq_eq hx hpiece hstop)
        fun x hx => h.side_eq_lt (by omega) hx
    have hafter : (placed p.stop after).filter (survives replace (p :: ps)) =
        (placed p.stop after).filter (survives replace ps) := by
      refine List.filter_congr fun x hx => ?_
      simp [survives, Placeholder.side_eq_gt hx (Nat.le_refl p.stop),
        show (Ordering.gt != .eq) = true from rfl]
    rw [placed_pieces hstart hstop]
    simp only [List.filter_append, filter_isOriginal_placed, hbefore, hin, hafter, ih]

theorem isSome_of_rendered_mem (h : Filled replace offset ps gs out) {q : Placeholder} {g : Glyph}
    (hq : (.rendered q, g) ∈ out) : q ∈ ps ∧ (replace q).isSome := by
  induction h with
  | nil => exact absurd hq (rendered_not_mem_placed q g)
  | cons hpiece hstart hstop _ ih =>
    rcases List.mem_append.1 hq with hq | hq
    · rcases List.mem_append.1 hq with hq | hq
      · exact absurd hq (rendered_not_mem_placed q g)
      · rcases mem_placed_or_of_mem_filledPiece hq with hq | ⟨hsome, heq⟩
        · exact absurd hq (rendered_not_mem_placed q g)
        · cases heq
          exact ⟨List.mem_cons_self, hsome⟩
    · obtain ⟨hmem, hsome⟩ := ih hq
      exact ⟨List.mem_cons_of_mem _ hmem, hsome⟩

theorem exists_inserted (h : Filled replace offset ps gs out) :
    ∀ q ∈ ps, ∀ r ∈ replace q, ∃ c style front back,
      (.original q.start, .char c style) ∈ placed offset gs ∧
      out = front ++ (r.glyphs style).map (fun g => (.rendered q, g)) ++
        (placed offset gs).filter (fun x => x.2.isAnchor && q.side x == .eq) ++ back ∧
      (∀ x ∈ front, q.side x = .lt) ∧ ∀ x ∈ back, q.side x = .gt := by
  induction h with
  | nil => nofun
  | @cons offset p ps before piece after out hpiece hstart hstop h ih =>
    have hp : p.start < p.stop := by
      have := hpiece.width_pos
      omega
    intro q hq r hr
    rw [placed_pieces hstart hstop]
    rcases List.mem_cons.1 hq with rfl | hq
    · -- Of the anchors, those of the piece are strictly inside the placeholder.
      obtain ⟨c, style, rest, hfirst⟩ := hpiece.first
      have hbefore : ∀ x ∈ placed offset before, q.side x = .lt :=
        fun x hx => Placeholder.side_eq_lt hx (by omega) hp
      refine ⟨c, style, placed offset before, out, ?_, ?_, hbefore, h.side_eq_gt (Nat.le_refl _) hp⟩
      · rw [hfirst, placed]
        simp
      · have hinside : (placed q.start piece).filter (fun x => x.2.isAnchor && q.side x == .eq) =
            (placed q.start piece).filter fun x => x.2.isAnchor :=
          List.filter_congr fun x hx => by simp [Placeholder.side_eq_eq hx hpiece hstop]
        have hstyle : styleOf piece = style := by rw [hfirst, styleOf]
        rw [List.filter_append, List.filter_append, hinside,
          filter_inside_eq_nil fun x hx => by simp [hbefore x hx],
          filter_inside_eq_nil fun x hx => by
            simp [Placeholder.side_eq_gt hx (Nat.le_refl q.stop)], filledPiece, hr, hstyle]
        simp
    · -- A later placeholder has what it had in the text after the piece.
      obtain ⟨c, style, front, back, hmem, hout, hfront, hback⟩ := ih q hq r hr
      have hbefore : ∀ x ∈ placed offset before, q.side x = .lt :=
        fun x hx => h.side_eq_lt (by omega) hx q hq
      refine ⟨c, style, placed offset before ++ filledPiece replace p piece ++ front, back,
        List.mem_append_right _ hmem, ?_, ?_, hback⟩
      · rw [List.filter_append, List.filter_append,
          filter_inside_eq_nil fun x hx => by simp [hbefore x hx],
          filter_inside_eq_nil fun x hx => by simp [h.side_eq_lt (by omega) hx q hq], hout]
        simp
      · intro x hx
        rcases List.mem_append.1 hx with hx | hx
        · rcases List.mem_append.1 hx with hx | hx
          · exact hbefore x hx
          · exact h.side_filledPiece_eq_lt hstop hp hx q hq
        · exact hfront x hx

/-- What a filling does, by the sides of the placeholders. -/
theorem survival (h : Filled replace offset ps gs out) : Survival replace offset ps gs out :=
  ⟨h.filter_isOriginal, fun _ _ hq => h.isSome_of_rendered_mem hq, h.exists_inserted⟩

end Filled

end Glyph

/-! ## Fillings -/

theorem Rendering.charsOf_glyphs (style : RunStyle) (r : Rendering) :
    Glyph.charsOf (r.glyphs style) = RunItem.charsOf r.content := by
  cases r with
  | items content => exact RunItem.charsOf_glyphsOf content
  | run r => exact r.charsOf_exactGlyphs

theorem Glyph.charsOf_filter_isAnchor (gs : List Glyph) : charsOf (gs.filter isAnchor) = [] := by
  refine List.filterMap_eq_nil_iff.2 fun g hg => ?_
  have hanchor := (List.mem_filter.1 hg).2
  cases g with
  | anchor a => rfl
  | _ => cases hanchor

namespace Filler

variable {f : Filler} {scope : Value}

namespace Progress

/-- In a view of the items, a splice at a piece of the glyphs replaces it by a rendering in the
    style of its first character, as the view shows it; but for what is in no run, which comes
    after that. -/
structure Shows (view : List Inline → List Glyph) (shown : Rendering → Rendering) : Prop where
  chars (items : List Inline) : Glyph.charsOf (view items) = items.flatMap Inline.chars
  content (r : Rendering) : RunItem.charsOf (shown r).content = RunItem.charsOf r.content
  splice {items : List Inline} {pre piece post : List Glyph} (r : Rendering)
    (h : view items = pre ++ piece ++ post) (hpiece : Glyph.IsSpan piece) :
    ∃ spliced, Paragraph.splice? items (Glyph.width pre) (Glyph.width (pre ++ piece)) r =
        some spliced ∧
      view spliced = pre ++ (shown r).glyphs (Glyph.styleOf piece) ++ piece.filter Glyph.isAnchor ++
        post

/-- The exact glyphs show renderings as they are. -/
theorem shows_exactGlyphsOf : Shows Inline.exactGlyphsOf id where
  chars := Inline.charsOf_exactGlyphsOf
  content _ := rfl
  splice r h hpiece := Paragraph.exists_splice_exact r h hpiece

variable {view : List Inline → List Glyph} {shown : Rendering → Rendering}
  {done before piece after : List Glyph} {offset : Nat} {state state' : Progress} {p : Placeholder}

/-- What one more placeholder leaves. -/
theorem Tracks.step (hview : Shows view shown) {text : String}
    (hs : f.step scope text state p = .ok state')
    (h : state.Tracks view done (before ++ piece ++ after) offset)
    (hpiece : Glyph.IsSpan piece) (hstart : p.start = offset + Glyph.width before)
    (hstop : p.stop = p.start + Glyph.width piece) :
    state'.Tracks view
      (done ++ before ++
        (Glyph.filledPiece (fun p => (f.rendering? scope p).map shown) p piece).map Prod.snd)
      after p.stop := by
  rw [Filler.step] at hs
  obtain ⟨⟨rendering, tally⟩, hr, hs⟩ := Except.bind_eq_ok.1 hs
  obtain rfl := eq_rendering?_of_replacement hr
  cases hs
  have h' : ({ state with tally := state.tally.add tally } : Progress).Tracks view
      done (before ++ piece ++ after) offset := ⟨h.glyphs, h.shift⟩
  rw [Glyph.filledPiece]
  cases f.rendering? scope p with
  | none => simpa using h'.skip hstart hstop
  | some r =>
    -- What is in no run and comes after the rendering has no characters.
    refine h'.splice hstart hstop (fun hglyphs => ?_) ?_
    · simpa [Glyph.map_snd_filter_placed, Function.comp_def] using hview.splice r hglyphs hpiece
    · simp [Glyph.map_snd_filter_placed, Function.comp_def, Rendering.charsOf_glyphs,
        Glyph.charsOf_filter_isAnchor, hview.content]

/-- What all placeholders to come leave. -/
theorem Tracks.foldlM (hview : Shows view shown) {text : String} {ps : List Placeholder}
    {rest : List Glyph} {out : List (Glyph.Source × Glyph)}
    (hs : ps.foldlM (f.step scope text) state = .ok state')
    (hps : Glyph.Filled (fun p => (f.rendering? scope p).map shown) offset ps rest out)
    (h : state.Tracks view done rest offset) : view state'.content = done ++ out.map Prod.snd := by
  induction hps generalizing state done with
  | nil =>
    cases hs
    rw [h.glyphs, Glyph.map_snd_placed]
  | cons hpiece hstart hstop _ ih =>
    rw [List.foldlM_cons] at hs
    obtain ⟨next, hstep, hs⟩ := Except.bind_eq_ok.1 hs
    rw [ih hs (h.step hview hstep hpiece hstart hstop)]
    simp

end Progress

variable {p q : Paragraph} {tally : Tally}

/-- Before line breaks are put in, a filling leaves of the glyphs in a view what the
    placeholders do. -/
theorem exists_filled {view : List Inline → List Glyph} {shown : Rendering → Rendering}
    (hview : Progress.Shows view shown) (h : f.fillParagraph scope p = .ok (q, tally)) :
    ∃ content out, q = ({ p with content }).mapRuns (Run.breakLines f.settings.lineBreak) ∧
      out.map Prod.snd = view content ∧
      Glyph.Filled (fun p => (f.rendering? scope p).map shown) 0 (f.delimiters.scan p.text)
        (view p.content) out := by
  rw [fillParagraph] at h
  obtain ⟨state, hs, h⟩ := Except.bind_eq_ok.1 h
  cases h
  have hps := Placeholder.occur_scan f.delimiters p
  have hchars : Glyph.charsOf (view p.content) = p.styledChars.map Prod.fst := by
    rw [hview.chars, p.map_styledChars, Paragraph.toList_text]
  obtain ⟨out, hout⟩ : ∃ out, Glyph.Filled (fun p => (f.rendering? scope p).map shown) 0
      (f.delimiters.scan p.text) (view p.content) out := Glyph.exists_filled hps hchars
  have hstart : ({ content := p.content } : Progress).Tracks view [] (view p.content) 0 :=
    ⟨rfl, rfl⟩
  exact ⟨state.content, out, rfl, (hstart.foldlM hview hs hout).symm, hout⟩

/-- Without a literal for line breaks, filling a paragraph keeps all items that are no runs,
    in their order, and of the exact glyphs all that is in no placeholder which is replaced.
    What it brings are the renderings, each in the place of its placeholder. An item that is
    no run and was strictly inside the placeholder comes directly after that. -/
theorem survival_fillParagraph (hl : ∀ l ∈ f.settings.lineBreak, l = "")
    (h : f.fillParagraph scope p = .ok (q, tally)) :
    Inline.nonRunsOf q.content = Inline.nonRunsOf p.content ∧
      ∃ out, out.map Prod.snd = Inline.exactGlyphsOf q.content ∧
        Glyph.Survival (f.rendering? scope) 0 (f.delimiters.scan p.text)
          (Inline.exactGlyphsOf p.content) out := by
  refine ⟨(fillParagraph_frame h).2.2, ?_⟩
  obtain ⟨content, out, rfl, hcontent, hout⟩ := exists_filled Progress.shows_exactGlyphsOf h
  simp only [Option.map_id_fun, id_eq] at hout
  refine ⟨out, ?_, hout.survival⟩
  rw [Paragraph.mapRuns_breakLines hl]
  exact hcontent

/-! ### A letterhead -/

/-- A paragraph with a placeholder across runs, and an anchor and a line break inside it. There
    is a tab before it, and a line break and an anchor come directly after it. -/
def letterhead : Paragraph where
  content :=
    [.run ⟨[.text "é", .tab, .text "$\x7bna"], { italic := true }⟩, .rangeStart 1,
      .run ⟨[.lineBreak, .text "me\x7d", .lineBreak], { bold := true }⟩, .rangeEnd 1,
      .run ⟨[.footnote 4, .text "$\x7bcount\x7d", .tab], {}⟩]

/-- The letterhead without the line break inside the placeholder. -/
def filledLetterhead : Paragraph where
  content :=
    [.run ⟨[.text "é", .tab], { italic := true }⟩, .run (.ofText "$\x7bé\x7d" { italic := true }),
      .rangeStart 1, .run ⟨[.lineBreak], { bold := true }⟩, .rangeEnd 1, .run ⟨[.footnote 4], {}⟩,
      .run (.ofText "3"), .run ⟨[.tab], {}⟩]

theorem survival_filledLetterhead :
    (∀ l ∈ standard.settings.lineBreak, l = "") ∧
      standard.fillParagraph salutationData letterhead = .ok (filledLetterhead, ⟨2, 0⟩) ∧
      Inline.nonRunsOf filledLetterhead.content = Inline.nonRunsOf letterhead.content ∧
      ∃ out, out.map Prod.snd = Inline.exactGlyphsOf filledLetterhead.content ∧
        Glyph.Survival (standard.rendering? salutationData) 0
          (standard.delimiters.scan letterhead.text) (Inline.exactGlyphsOf letterhead.content) out := by
  have hl : ∀ l ∈ standard.settings.lineBreak, l = "" := by simp [standard]
  have h : standard.fillParagraph salutationData letterhead = .ok (filledLetterhead, ⟨2, 0⟩) :=
    Except.eq_ok_of_toOption (by decide +kernel)
  exact ⟨hl, h, survival_fillParagraph hl h⟩

end Filler

end DocTemplate
