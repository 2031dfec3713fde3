import DocTemplate.Proofs.Placeholder.Survival

/-!
# Reading the range of a comment

A reader goes over glyphs one after the other, and looks for a run between the anchors of a
comment. What the reader knows of the range after some of them is a state (`Glyph.Reading`),
of which there are few: only before the range or at its start does it matter whether a glyph
of a run is left out.

So a filling changes little for a reader, if every rendering has something of a run:

* `Glyph.Filled.foldl_read`: nothing for one who is in the range;
* `Glyph.Filled.foldl_read_ahead`: one who is before the range misses the runs after the anchor of
  its start, as far as a placeholder goes that is replaced and starts before that anchor.
-/

namespace DocTemplate

namespace Glyph

/-- What a reader knows of the range of a comment after some glyphs: whether it has started,
    whether it has ended, and whether there was a run in it. -/
inductive Reading where
  | ahead
  | inside (run : Bool)
  | past (run : Bool)
  deriving DecidableEq

/-- What a reader knows after one more glyph. -/
def read (comment : CommentId) : Reading → Glyph → Reading
  | .ahead, .anchor a =>
    if a = .rangeStart comment then .inside false
    else if a = .rangeEnd comment then .past false
    else .ahead
  | .inside run, .anchor a => if a = .rangeEnd comment then .past run else .inside run
  | .inside _, _ => .inside true
  | known, _ => known

/-- What a reader knows after something of a run. -/
def Reading.withRun : Reading → Reading
  | .inside _ => .inside true
  | known => known

/-- Nothing of a run matters to the reader any more. -/
def Reading.IsSettled (known : Reading) : Prop :=
  known ≠ .ahead ∧ known.withRun = known

variable {comment : CommentId} {known : Reading} {g g' : Glyph} {gs gs' : List Glyph}

theorem read_ahead_rangeStart :
    read comment .ahead (.anchor (.rangeStart comment)) = .inside false :=
  if_pos rfl

theorem Reading.inside_ne_ahead (run : Bool) : inside run ≠ ahead := nofun

theorem read_eq_withRun (hg : g.isAnchor = false) : read comment known g = known.withRun := by
  cases g with
  | anchor a => cases hg
  | _ => cases known <;> rfl

theorem Reading.isSettled_withRun (h : known ≠ .ahead) : known.withRun.IsSettled := by
  cases known with
  | ahead => exact absurd rfl h
  | _ => exact ⟨nofun, rfl⟩

theorem read_ne_ahead (h : known ≠ .ahead) (g : Glyph) : read comment known g ≠ .ahead := by
  cases hg : g.isAnchor with
  | false =>
    rw [read_eq_withRun hg]
    exact (Reading.isSettled_withRun h).1
  | true =>
    cases g <;> cases hg
    cases known with
    | ahead => exact absurd rfl h
    | inside run =>
      rw [read]
      split <;> exact nofun
    | past run => exact nofun

theorem read_isSettled (h : known.IsSettled) (g : Glyph) : (read comment known g).IsSettled := by
  refine ⟨read_ne_ahead h.1 g, ?_⟩
  cases hg : g.isAnchor with
  | false => rw [read_eq_withRun hg, h.2, h.2]
  | true =>
    cases g <;> cases hg
    cases known with
    | ahead => exact absurd rfl h.1
    | inside run =>
      rw [read]
      split
      · rfl
      · exact h.2
    | past run => rfl

theorem foldl_read_ne_ahead (h : known ≠ .ahead) (gs : List Glyph) :
    gs.foldl (read comment) known ≠ .ahead := by
  induction gs generalizing known with
  | nil => exact h
  | cons g gs ih => exact ih (read_ne_ahead h g)

/-- To a reader to whom runs do not matter, only anchors do. -/
theorem foldl_read_filter_isAnchor (h : known.IsSettled) (gs : List Glyph) :
    (gs.filter isAnchor).foldl (read comment) known = gs.foldl (read comment) known := by
  induction gs generalizing known with
  | nil => rfl
  | cons g gs ih =>
    rw [List.filter_cons, List.foldl_cons]
    cases hg : g.isAnchor with
    | true => exact ih (read_isSettled h g)
    | false =>
      rw [read_eq_withRun hg, h.2]
      exact ih h

/-- A reader who is not before the range knows the same after any glyphs that have the same
    anchors and something of a run at their front. -/
theorem foldl_read_congr (h : known ≠ .ahead) (hg : g.isAnchor = false)
    (hg' : g'.isAnchor = false) (hanchors : gs'.filter isAnchor = gs.filter isAnchor) :
    (g' :: gs').foldl (read comment) known = (g :: gs).foldl (read comment) known := by
  rw [List.foldl_cons, List.foldl_cons, read_eq_withRun hg, read_eq_withRun hg',
    ← foldl_read_filter_isAnchor (Reading.isSettled_withRun h), hanchors,
    foldl_read_filter_isAnchor (Reading.isSettled_withRun h)]

/-- A reader who is before the range stays there without the anchors of the comment. -/
theorem foldl_read_ahead (hstart : .anchor (.rangeStart comment) ∉ gs)
    (hend : .anchor (.rangeEnd comment) ∉ gs) : gs.foldl (read comment) .ahead = .ahead := by
  induction gs with
  | nil => rfl
  | cons g gs ih =>
    simp only [List.mem_cons, not_or] at hstart hend
    have hread : read comment .ahead g = .ahead := by
      cases g with
      | anchor a =>
        rw [read, if_neg (by rintro rfl; exact hstart.1 rfl), if_neg (by rintro rfl; exact hend.1 rfl)]
      | _ => rfl
    rw [List.foldl_cons, hread]
    exact ih hstart.2 hend.2

/-- A reader in the range stays there without the anchor of the end, and sees the runs. -/
theorem foldl_read_inside (hend : .anchor (.rangeEnd comment) ∉ gs) (run : Bool) :
    gs.foldl (read comment) (.inside run) = .inside (run || gs.any fun g => !g.isAnchor) := by
  induction gs generalizing run with
  | nil => simp
  | cons g gs ih =>
    simp only [List.mem_cons, not_or] at hend
    have hread : read comment (.inside run) g = .inside (run || !g.isAnchor) := by
      cases g with
      | anchor a =>
        rw [read, if_neg (by rintro rfl; exact hend.1 rfl)]
        simp [isAnchor]
      | _ => simp [read, isAnchor]
    rw [List.foldl_cons, hread, ih hend.2, List.any_cons, Bool.or_assoc]

theorem foldl_read_past (run : Bool) (gs : List Glyph) :
    gs.foldl (read comment) (.past run) = .past run := by
  induction gs with
  | nil => rfl
  | cons g gs ih => exact ih

/-- What a reader in the range knows in the end. -/
theorem foldl_read_range (hend : .anchor (.rangeEnd comment) ∉ gs) (gs' : List Glyph) :
    (gs ++ .anchor (.rangeEnd comment) :: gs').foldl (read comment) (.inside false) =
      .past (gs.any fun g => !g.isAnchor) := by
  rw [List.foldl_append, foldl_read_inside hend, Bool.false_or, List.foldl_cons, read, if_pos rfl,
    foldl_read_past]

/-! ## Fillings -/

variable {replace : Placeholder → Option Rendering} {p : Placeholder} {ps : List Placeholder}
  {offset : Nat} {piece : List Glyph} {out : List (Source × Glyph)}

/-- Every rendering has something of a run, and nothing else. -/
def IsRuns (replace : Placeholder → Option Rendering) : Prop :=
  ∀ p, ∀ r ∈ replace p, ∀ style, r.glyphs style ≠ [] ∧ ∀ g ∈ r.glyphs style, g.isAnchor = false

/-- The anchors of a piece are what they were. -/
theorem filter_isAnchor_filledPiece (hreplace : IsRuns replace) (p : Placeholder)
    (piece : List Glyph) : ((filledPiece replace p piece).map Prod.snd).filter isAnchor =
      piece.filter isAnchor := by
  rw [filledPiece]
  cases hr : replace p with
  | none => rw [map_snd_placed]
  | some r =>
    have hnone : (r.glyphs (styleOf piece)).filter isAnchor = [] :=
      List.filter_eq_nil_iff.2 fun g hg => by simp [(hreplace p r hr _).2 g hg]
    rw [List.map_append, List.filter_append, map_snd_filter_placed, List.map_map, List.filter_filter]
    simp [Function.comp_def, hnone]

/-- To a reader in the range, a placeholder changes nothing: there is a run before and after. -/
theorem foldl_read_filledPiece (hreplace : IsRuns replace) (hpiece : IsSpan piece)
    (h : known ≠ .ahead) :
    ((filledPiece replace p piece).map Prod.snd).foldl (read comment) known =
      piece.foldl (read comment) known := by
  have hanchors := filter_isAnchor_filledPiece hreplace p piece
  obtain ⟨c, style, rest, rfl⟩ := hpiece.first
  rw [filledPiece] at hanchors ⊢
  cases hr : replace p with
  | none => rw [map_snd_placed]
  | some r =>
    rw [hr] at hanchors
    obtain ⟨hne, hnone⟩ := hreplace p r hr (styleOf (.char c style :: rest))
    obtain ⟨g, gs, hglyphs⟩ := List.exists_cons_of_ne_nil hne
    simp only [hglyphs, List.map_append, List.map_cons, List.cons_append] at hanchors ⊢
    have hg : g.isAnchor = false := hnone g (by rw [hglyphs]; exact List.mem_cons_self)
    refine foldl_read_congr h rfl hg ?_
    rwa [List.filter_cons_of_neg (by simp [hg]),
      List.filter_cons_of_neg (by simp [isAnchor])] at hanchors

namespace Filled

/-- To a reader in the range, a filling changes nothing. -/
theorem foldl_read (h : Filled replace offset ps gs out) (hreplace : IsRuns replace)
    (hknown : known ≠ .ahead) :
    (out.map Prod.snd).foldl (read comment) known = gs.foldl (read comment) known := by
  induction h generalizing known with
  | nil => rw [map_snd_placed]
  | cons hpiece _ _ _ ih =>
    simp only [List.map_append, List.foldl_append, map_snd_placed]
    rw [foldl_read_filledPiece hreplace hpiece (foldl_read_ne_ahead hknown _),
      ih (foldl_read_ne_ahead (foldl_read_ne_ahead hknown _) _)]

end Filled

/-- Whether a glyph after an anchor at the offset `n` is left to a reader who comes from before
    the anchor: it is in no run, or no placeholder that is replaced starts before the anchor and
    goes on behind the glyph. -/
def isLeft (replace : Placeholder → Option Rendering) (ps : List Placeholder) (n : Nat) :
    Source × Glyph → Bool
  | (.original k, g) =>
    g.isAnchor || ps.all fun p => (replace p).isNone || n ≤ p.start || p.stop ≤ k
  | (.rendered _, _) => true

/-- All is left if no placeholder that is replaced is before the glyphs and around the anchor. -/
theorem filter_isLeft_eq_self {n start : Nat}
    (h : ∀ p ∈ ps, replace p = none ∨ n ≤ p.start ∨ p.stop ≤ start) (gs : List Glyph) :
    (placed start gs).filter (isLeft replace ps n) = placed start gs := by
  refine List.filter_eq_self.2 fun x hx => ?_
  obtain ⟨front, g, back, -, rfl⟩ := mem_placed_iff.1 hx
  simp only [isLeft, Bool.or_eq_true, List.all_eq_true, decide_eq_true_eq,
    Option.isNone_iff_eq_none, or_assoc]
  exact .inr fun p hp => (h p hp).imp_right (Or.imp_right fun hle => by omega)

theorem map_snd_filledPiece {r : Rendering} (hr : replace p = some r) (piece : List Glyph) :
    (filledPiece replace p piece).map Prod.snd =
      r.glyphs (styleOf piece) ++ piece.filter isAnchor := by
  rw [filledPiece, hr, List.map_append, map_snd_filter_placed]
  simp [Function.comp_def]

theorem foldl_read_ahead_of_runs (h : ∀ g ∈ gs, g.isAnchor = false) :
    gs.foldl (read comment) .ahead = .ahead :=
  foldl_read_ahead (fun hmem => nomatch h _ hmem) fun hmem => nomatch h _ hmem

/-- A placeholder whose range has not started yet leaves a reader before it. -/
theorem foldl_read_ahead_filledPiece (hreplace : IsRuns replace)
    (hstart : .anchor (.rangeStart comment) ∉ piece) (hend : .anchor (.rangeEnd comment) ∉ piece) :
    ((filledPiece replace p piece).map Prod.snd).foldl (read comment) .ahead = .ahead := by
  have hmem : ∀ a, .anchor a ∉ piece → .anchor a ∉ (filledPiece replace p piece).map Prod.snd := by
    intro a ha hmem
    have hanchor := List.mem_filter.2 ⟨hmem, show isAnchor (.anchor a) = true from rfl⟩
    rw [filter_isAnchor_filledPiece hreplace] at hanchor
    exact ha (List.mem_filter.1 hanchor).1
  exact foldl_read_ahead (hmem _ hstart) (hmem _ hend)

/-- In a placeholder that is replaced, only anchors are left to a reader who comes from before an
    anchor strictly inside it. -/
theorem filter_isLeft_inside {a : Inline} {pre post : List Glyph}
    (hpiece : IsSpan (pre ++ .anchor a :: post)) (hp : p ∈ ps) (hreplace : (replace p).isSome)
    (hstop : p.stop = p.start + width (pre ++ .anchor a :: post)) :
    (placed (p.start + width pre) post).filter (isLeft replace ps (p.start + width pre)) =
      (placed (p.start + width pre) post).filter fun x => x.2.isAnchor := by
  obtain ⟨hpre, -⟩ := hpiece.width_pos_around rfl
  refine List.filter_congr fun x hx => ?_
  obtain ⟨front, g, back, rfl, rfl⟩ := mem_placed_iff.1 hx
  -- The glyph is before the end of the placeholder, which is a character.
  have hends : EndsInText (g :: back) := by
    have hspan := hpiece.endsInText []
    rw [List.nil_append, List.append_cons, ← List.append_assoc] at hspan
    exact hspan.of_append
  have hback : 0 < width (g :: back) := width_pos (hends.charsOf_ne_nil (List.cons_ne_nil g back))
  have hwidth : width (pre ++ .anchor a :: (front ++ g :: back)) =
      width pre + width front + width (g :: back) := by
    rw [width_append, width_cons, width_append]
    change _ + (0 + _) = _
    omega
  cases hg : g.isAnchor with
  | true => simp [isLeft, hg]
  | false =>
    simp only [isLeft, hg, Bool.false_or, List.all_eq_false]
    refine ⟨p, hp, ?_⟩
    simp only [Bool.or_eq_true, decide_eq_true_eq, Option.isNone_iff_eq_none]
    rw [Option.isSome_iff_ne_none] at hreplace
    rintro ((hnone | hle) | hle)
    · exact hreplace hnone
    · omega
    · omega

namespace Filled

/-- What a reader knows after a filling if the range starts strictly inside the first placeholder:
    if that is replaced, only the anchors in it are left. -/
theorem foldl_read_ahead_inside {pre mid after : List Glyph}
    (h : Filled replace p.stop ps after out) (hreplace : IsRuns replace)
    (hpiece : IsSpan (pre ++ .anchor (.rangeStart comment) :: mid))
    (hpstop : p.stop = p.start + width (pre ++ .anchor (.rangeStart comment) :: mid))
    (hstart : .anchor (.rangeStart comment) ∉ pre) (hend : .anchor (.rangeEnd comment) ∉ pre) :
    (out.map Prod.snd).foldl (read comment) (((filledPiece replace p
        (pre ++ .anchor (.rangeStart comment) :: mid)).map Prod.snd).foldl (read comment) .ahead) =
      (((placed (p.start + width pre) (mid ++ after)).filter
        (isLeft replace (p :: ps) (p.start + width pre))).map Prod.snd).foldl (read comment)
          (.inside false) := by
  have hstop : p.stop = p.start + width pre + width mid := by
    rw [hpstop, width_append, width_cons, ← Nat.add_assoc]
    simp [width, char?]
  have hafter : ∀ q ∈ ps, replace q = none ∨ p.start + width pre ≤ q.start ∨
      q.stop ≤ p.start + width pre := by
    refine fun q hq => .inr (.inl ?_)
    have := (h.bounds q hq).1
    omega
  cases hr : replace p with
  | none =>
    rw [filter_isLeft_eq_self (List.forall_mem_cons.2 ⟨.inl hr, hafter⟩), map_snd_placed,
      filledPiece, hr, map_snd_placed]
    simp only [List.foldl_append, List.foldl_cons, Glyph.foldl_read_ahead hstart hend,
      read_ahead_rangeStart]
    exact h.foldl_read hreplace (foldl_read_ne_ahead (Reading.inside_ne_ahead false) mid)
  | some r =>
    have hpre : (pre.filter isAnchor).foldl (read comment) .ahead = .ahead :=
      Glyph.foldl_read_ahead (fun hmem => hstart (List.mem_filter.1 hmem).1)
        fun hmem => hend (List.mem_filter.1 hmem).1
    rw [placed_append, List.filter_append,
      filter_isLeft_inside hpiece List.mem_cons_self (by rw [hr]; rfl) hpstop,
      filter_isLeft_eq_self (List.forall_mem_cons.2 ⟨.inr (.inr (by omega)), fun q hq =>
        (hafter q hq).imp_right (Or.imp_right fun hle => by omega)⟩),
      map_snd_filledPiece hr, List.filter_append, List.filter_cons_of_pos rfl, List.map_append,
      map_snd_filter_placed, map_snd_placed]
    simp only [List.foldl_append, List.foldl_cons, foldl_read_ahead_of_runs (hreplace p r hr _).2,
      hpre, read_ahead_rangeStart]
    exact h.foldl_read hreplace (foldl_read_ne_ahead (Reading.inside_ne_ahead false) _)

/-- What a reader who is before the range knows after a filling: what is left of the range. -/
theorem foldl_read_ahead (h : Filled replace offset ps gs out) (hreplace : IsRuns replace)
    {pre post : List Glyph} (hgs : gs = pre ++ .anchor (.rangeStart comment) :: post)
    (hstart : .anchor (.rangeStart comment) ∉ pre) (hend : .anchor (.rangeEnd comment) ∉ pre) :
    (out.map Prod.snd).foldl (read comment) .ahead =
      (((placed (offset + width pre) post).filter (isLeft replace ps (offset + width pre))).map
        Prod.snd).foldl (read comment) (.inside false) := by
  induction h generalizing pre with
  | nil =>
    rw [filter_isLeft_eq_self (by simp), map_snd_placed, map_snd_placed, hgs, List.foldl_append,
      Glyph.foldl_read_ahead hstart hend, List.foldl_cons, read_ahead_rangeStart]
  | @cons offset p ps before piece after out hpiece hpstart hpstop h ih =>
    have hbounds : ∀ q ∈ ps, p.stop ≤ q.start := fun q hq => (h.bounds q hq).1
    simp only [List.map_append, map_snd_placed, List.foldl_append]
    rw [List.append_assoc] at hgs
    rcases exists_of_append_eq_append_cons hgs with ⟨mid, rfl, rfl⟩ | ⟨pre', rfl, hgs'⟩
    · -- The range starts before the piece.
      have hpstart' : p.start = offset + width pre + width mid := by
        rw [hpstart, width_append, width_cons, Nat.add_assoc]
        simp [width, char?]
      have hrest : _ = (mid ++ piece ++ after).foldl (read comment) (.inside false) :=
        (Filled.cons hpiece hpstart' hpstop h).foldl_read hreplace (Reading.inside_ne_ahead false)
      have hleft : ∀ q ∈ p :: ps,
          replace q = none ∨ offset + width pre ≤ q.start ∨ q.stop ≤ offset + width pre := by
        refine List.forall_mem_cons.2 ⟨.inr (.inl (by omega)), fun q hq => .inr (.inl ?_)⟩
        have := hbounds q hq
        omega
      rw [filter_isLeft_eq_self hleft, map_snd_placed]
      simp only [List.foldl_append, List.foldl_cons, Glyph.foldl_read_ahead hstart hend,
        read_ahead_rangeStart]
      simpa only [List.map_append, map_snd_placed, List.foldl_append] using hrest
    · rw [List.mem_append, not_or] at hstart hend
      rw [Glyph.foldl_read_ahead hstart.1 hend.1, width_append, ← Nat.add_assoc, ← hpstart]
      rcases exists_of_append_eq_append_cons hgs' with ⟨mid, rfl, rfl⟩ | ⟨pre, rfl, rfl⟩
      · -- It starts strictly inside the piece.
        exact h.foldl_read_ahead_inside hreplace hpiece hpstop hstart.2 hend.2
      · -- It starts after the piece.
        rw [List.mem_append, not_or] at hstart hend
        rw [foldl_read_ahead_filledPiece hreplace hstart.2.1 hend.2.1, ih rfl hstart.2.2 hend.2.2,
          width_append, ← Nat.add_assoc, ← hpstop]
        have hleft : (placed (p.stop + width pre) post).filter
              (isLeft replace (p :: ps) (p.stop + width pre)) =
            (placed (p.stop + width pre) post).filter (isLeft replace ps (p.stop + width pre)) := by
          refine List.filter_congr fun x hx => ?_
          obtain ⟨front, g, back, -, rfl⟩ := mem_placed_iff.1 hx
          simp [isLeft, show p.stop ≤ p.stop + width pre + width front by omega]
        rw [hleft]

end Filled

end Glyph

end DocTemplate
