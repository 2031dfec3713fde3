import DocTemplate.Document.Paragraph
import DocTemplate.Proofs.Document.Place
import DocTemplate.Proofs.Document.Splitting
import Mathlib.Data.List.Sort

/-!
# Spans of runs

The text of a paragraph is that of its runs, one after the other, so the bytes of a run come behind
those of all runs before it. The span of a run is where they are, and a run without text has none
(`Paragraph.mem_spansFrom_iff`). So the spans are adjacent and together they are the text
(`Span.Tiles`), and every byte of the text belongs to exactly one of them.

The length of a run may be counted one text after the other (`RunItem.bytes`) or in its text as a
whole; that this is the same is `RunItem.width_charsOf`.

* `Span.Tiles.countP_contains`, `Span.Tiles.find?_contains`: the bytes of adjacent spans;
* `Paragraph.tiles_spansFrom`, `Paragraph.pairwise_index_spansFrom`: the spans of some items;
* `Paragraph.isPartition_iff`: the spans of a paragraph, and no others, partition its text.
-/

namespace DocTemplate

namespace Text

/-- The piece is what is between two byte offsets of the text. -/
def IsBetween (text : String) (start stop : Nat) (piece : String) : Prop :=
  ∃ before after, text = before ++ piece ++ after ∧ size before = start ∧
    size (before ++ piece) = stop

end Text

/-! ## Lengths of texts -/

namespace RunItem

/-- The number of bytes of the texts among some items, counted one text after the other. -/
def bytes : List RunItem → Nat
  | [] => 0
  | .text s :: items => Text.size s + bytes items
  | _ :: items => bytes items

/-- The text of some items has the bytes of their texts. -/
theorem width_charsOf (items : List RunItem) : Text.width (charsOf items) = bytes items := by
  induction items with
  | nil => rfl
  | cons item items ih =>
    cases item with
    | text s => rw [width_charsOf_text, ih, bytes]
    | _ => rw [charsOf_cons, chars_eq_nil rfl, List.nil_append, ih, bytes]; nofun

end RunItem

namespace Inline

/-- An item with bytes of text is a run. -/
theorem exists_run_of_size_ne_zero {item : Inline} (h : item.size ≠ 0) :
    ∃ r, item = .run r ∧ r.text ≠ "" := by
  cases item with
  | run r =>
    refine ⟨r, rfl, fun htext => h ?_⟩
    have hchars : r.text.toList = RunItem.charsOf r.content := String.toList_ofList
    rw [size, chars, ← hchars, htext]
    rfl
  | _ => exact absurd rfl h

theorem size_run (r : Run) : (run r).size = Text.size r.text := by
  rw [Text.size, Run.text, RunItem.textOf, String.toList_ofList]
  rfl

end Inline

/-! ## Adjacent spans -/

namespace Span

/-- The spans are adjacent, and together they are the bytes from `start` up to `stop`: none of them
    is empty, the first one begins at `start`, each other one where the one before it ends, and the
    last one ends at `stop`. -/
def Tiles : (start : Nat) → List Span → (stop : Nat) → Prop
  | start, [], stop => start = stop
  | start, s :: spans, stop => s.start = start ∧ s.start < s.stop ∧ Tiles s.stop spans stop

variable {start stop stop' : Nat} {spans spans' : List Span}

theorem Tiles.le (h : Tiles start spans stop) : start ≤ stop := by
  induction spans generalizing start with
  | nil => exact Nat.le_of_eq h
  | cons s spans ih =>
    obtain ⟨rfl, hlt, hrest⟩ := h
    exact Nat.le_trans (Nat.le_of_lt hlt) (ih hrest)

/-- Each byte from `start` up to `stop` belongs to exactly one of them, and no other byte to any. -/
theorem Tiles.countP_contains (h : Tiles start spans stop) (offset : Nat) :
    spans.countP (fun s => s.contains offset) =
      if start ≤ offset ∧ offset < stop then 1 else 0 := by
  induction spans generalizing start with
  | nil =>
    obtain rfl : start = stop := h
    rw [List.countP_nil, if_neg (by omega)]
  | cons s spans ih =>
    obtain ⟨rfl, hlt, hrest⟩ := h
    have hle := hrest.le
    rw [List.countP_cons, ih hrest]
    simp only [contains, Bool.and_eq_true, decide_eq_true_eq]
    split_ifs <;> omega

theorem Tiles.start_le (h : Tiles start spans stop) {s : Span} (hs : s ∈ spans) :
    start ≤ s.start := by
  induction spans generalizing start with
  | nil => cases hs
  | cons t spans ih =>
    obtain ⟨rfl, hlt, hrest⟩ := h
    rcases List.mem_cons.1 hs with rfl | hs
    · exact Nat.le_refl _
    · exact Nat.le_trans (Nat.le_of_lt hlt) (ih hrest hs)

/-- The span that contains an offset is the one that is found for it. -/
theorem Tiles.find?_contains (h : Tiles start spans stop) {s : Span} (hs : s ∈ spans) {offset : Nat}
    (hoffset : s.contains offset) : spans.find? (fun t => t.contains offset) = some s := by
  induction spans generalizing start with
  | nil => cases hs
  | cons t spans ih =>
    obtain ⟨rfl, hlt, hrest⟩ := h
    rcases List.mem_cons.1 hs with rfl | hs
    · exact List.find?_cons_of_pos hoffset
    · have hle := hrest.start_le hs
      rw [List.find?_cons_of_neg, ih hrest hs]
      simp only [contains, Bool.and_eq_true, decide_eq_true_eq] at hoffset ⊢
      omega

/-- Adjacent spans are known by their indices, if the lengths are. -/
theorem Tiles.eq_of_map_index_eq (h : Tiles start spans stop) (h' : Tiles start spans' stop')
    (hindex : spans.map index = spans'.map index)
    (hlength : ∀ s ∈ spans, ∀ t ∈ spans', s.index = t.index →
      s.stop - s.start = t.stop - t.start) : spans = spans' := by
  induction spans generalizing start spans' with
  | nil => exact (List.map_eq_nil_iff.1 hindex.symm).symm
  | cons s spans ih =>
    cases spans' with
    | nil => cases hindex
    | cons t spans' =>
      obtain ⟨hstart, hlt, hrest⟩ := h
      obtain ⟨hstart', hlt', hrest'⟩ := h'
      obtain ⟨hi, hindex⟩ := List.cons_eq_cons.1 hindex
      have hsize := hlength s List.mem_cons_self t List.mem_cons_self hi
      have hstop : t.stop = s.stop := by omega
      have hst : s = t := by
        cases s
        cases t
        simp_all
      rw [hstop] at hrest'
      rw [hst, ih hrest hrest' hindex fun s hs t ht =>
        hlength s (List.mem_cons_of_mem _ hs) t (List.mem_cons_of_mem _ ht)]

end Span

/-! ## The spans of some items -/

namespace Paragraph

variable {p : Paragraph} {parts parts' : List Span} {s : Span}

/-- The span of an item behind some others, the first of which is at `index` and starts at
    `offset`. -/
def spanBehind (index offset : Nat) (before : List Inline) (item : Inline) : Span :=
  let start := offset + Text.width (before.flatMap Inline.chars)
  ⟨index + before.length, start, start + item.size⟩

theorem spanBehind_cons (index offset : Nat) (first : Inline) (before : List Inline) (item : Inline) :
    spanBehind index offset (first :: before) item =
      spanBehind (index + 1) (offset + first.size) before item := by
  simp only [spanBehind, Inline.size, List.flatMap_cons, Text.width_append, List.length_cons,
    Nat.add_assoc, Nat.add_comm 1]

/-- The spans are those of the items with text, each behind the items before it. -/
theorem mem_spansFrom_iff (index offset : Nat) (items : List Inline) :
    s ∈ spansFrom index offset items ↔ ∃ before item after, items = before ++ item :: after ∧
      item.size ≠ 0 ∧ s = spanBehind index offset before item := by
  induction items generalizing index offset with
  | nil => simp [spansFrom]
  | cons item items ih =>
    have hcons : s ∈ spansFrom index offset (item :: items) ↔
        (item.size ≠ 0 ∧ s = spanBehind index offset [] item) ∨
          s ∈ spansFrom (index + 1) (offset + item.size) items := by
      rw [spansFrom]
      split <;> simp [*, spanBehind]
    rw [hcons, ih]
    constructor
    · rintro (⟨hsize, rfl⟩ | ⟨before, other, after, rfl, hsize, rfl⟩)
      · exact ⟨[], item, items, rfl, hsize, rfl⟩
      · exact ⟨item :: before, other, after, rfl, hsize, (spanBehind_cons ..).symm⟩
    · rintro ⟨before, other, after, hitems, hsize, rfl⟩
      cases before with
      | nil =>
        obtain ⟨rfl, rfl⟩ := List.cons_eq_cons.1 hitems
        exact .inl ⟨hsize, rfl⟩
      | cons first before =>
        obtain ⟨rfl, rfl⟩ := List.cons_eq_cons.1 hitems
        exact .inr ⟨before, other, after, rfl, hsize, spanBehind_cons ..⟩

/-- The spans come in the order of the items. -/
theorem pairwise_index_spansFrom (index offset : Nat) (items : List Inline) :
    (spansFrom index offset items).Pairwise fun s t => s.index < t.index := by
  induction items generalizing index offset with
  | nil => exact .nil
  | cons item items ih =>
    rw [spansFrom]
    split
    · exact ih _ _
    · refine List.pairwise_cons.2 ⟨fun t ht => ?_, ih _ _⟩
      obtain ⟨before, -, -, -, -, rfl⟩ := (mem_spansFrom_iff _ _ _).1 ht
      simp only [spanBehind]
      omega

/-- The spans are adjacent, and they are all the text. -/
theorem tiles_spansFrom (index offset : Nat) (items : List Inline) :
    Span.Tiles offset (spansFrom index offset items)
      (offset + Text.width (items.flatMap Inline.chars)) := by
  induction items generalizing index offset with
  | nil => rfl
  | cons item items ih =>
    have hstop : offset + item.size + Text.width (items.flatMap Inline.chars) =
        offset + Text.width ((item :: items).flatMap Inline.chars) := by
      rw [List.flatMap_cons, Text.width_append, Inline.size, Nat.add_assoc]
    have hrest := ih (index + 1) (offset + item.size)
    rw [hstop] at hrest
    rw [spansFrom]
    split
    · next hsize => rwa [hsize, Nat.add_zero] at hrest ⊢
    · next hsize => exact ⟨rfl, by simp only; omega, hrest⟩

/-! ## The spans of a paragraph -/

/-- The parts divide the text of the paragraph among its runs. -/
structure IsPartition (p : Paragraph) (parts : List Span) : Prop where
  /-- The parts are not empty, they are adjacent, and they cover the text from its first byte to its
      last. -/
  tiles : Span.Tiles 0 parts (Text.size p.text)
  /-- They come in the order of the items that they belong to. -/
  increasing : parts.Pairwise fun s t => s.index < t.index
  /-- At the index of a part is a run. What is between the offsets of the part is the text of this
      run, and it is as long as the texts in the run are together. -/
  run : ∀ s ∈ parts, ∃ r, p.content[s.index]? = some (.run r) ∧
    Text.IsBetween p.text s.start s.stop r.text ∧ s.stop = s.start + RunItem.bytes r.content
  /-- The runs with text have a part, and no other item has one. -/
  index : ∀ i, (∃ s ∈ parts, s.index = i) ↔ ∃ r, p.content[i]? = some (.run r) ∧ r.text ≠ ""
  /-- Every byte of the text belongs to exactly one part, and no offset from its end on to any. -/
  contains : ∀ offset,
    parts.countP (fun s => s.contains offset) = if offset < Text.size p.text then 1 else 0

theorem size_text (p : Paragraph) :
    Text.size p.text = Text.width (p.content.flatMap Inline.chars) := by
  rw [Text.size, toList_text]

/-- The spans are those of the runs with text, each behind the text before it. -/
theorem mem_spans_iff : s ∈ p.spans ↔ ∃ before r after, p.content = before ++ .run r :: after ∧
    r.text ≠ "" ∧ s.index = before.length ∧ s.start = Text.width (before.flatMap Inline.chars) ∧
      s.stop = s.start + Text.size r.text := by
  rw [spans, mem_spansFrom_iff]
  constructor
  · rintro ⟨before, item, after, hcontent, hsize, rfl⟩
    obtain ⟨r, rfl, htext⟩ := Inline.exists_run_of_size_ne_zero hsize
    rw [spanBehind, Inline.size_run]
    exact ⟨before, r, after, hcontent, htext, Nat.zero_add _, Nat.zero_add _, rfl⟩
  · rintro ⟨before, r, after, hcontent, htext, hindex, hstart, hstop⟩
    have hsize : (Inline.run r).size ≠ 0 := by rwa [Inline.size_run, Ne, Text.size_eq_zero_iff]
    refine ⟨before, .run r, after, hcontent, hsize, ?_⟩
    rw [hstart] at hstop
    cases s
    simp_all [spanBehind, Inline.size_run]

/-- What is between the offsets of a run is its text. -/
theorem isBetween_text {before after : List Inline} {r : Run}
    (h : p.content = before ++ .run r :: after) :
    Text.IsBetween p.text (Text.width (before.flatMap Inline.chars))
      (Text.width (before.flatMap Inline.chars) + Text.size r.text) r.text := by
  refine ⟨String.ofList (before.flatMap Inline.chars), String.ofList (after.flatMap Inline.chars),
    ?_, ?_, ?_⟩
  · rw [← String.toList_inj, toList_text, h]
    simp [Inline.chars, Run.text, RunItem.textOf]
  · simp [Text.size]
  · simp [Text.size]

/-- The spans of a paragraph partition its text. -/
theorem isPartition_spans (p : Paragraph) : p.IsPartition p.spans := by
  have htiles : Span.Tiles 0 p.spans (Text.size p.text) := by
    have h := tiles_spansFrom 0 0 p.content
    rwa [Nat.zero_add, ← size_text] at h
  refine ⟨htiles, pairwise_index_spansFrom 0 0 p.content, fun s hs => ?_, fun i => ⟨?_, ?_⟩,
    fun offset => ?_⟩
  · obtain ⟨before, r, after, hcontent, -, hindex, hstart, hstop⟩ := mem_spans_iff.1 hs
    have hrun : p.content[s.index]? = some (.run r) := by simp [hcontent, hindex]
    have hbetween := isBetween_text hcontent
    rw [← hstart, ← hstop] at hbetween
    have hbytes : Text.size r.text = RunItem.bytes r.content := by
      rw [← Inline.size_run, ← RunItem.width_charsOf]
      rfl
    exact ⟨r, hrun, hbetween, hbytes ▸ hstop⟩
  · rintro ⟨s, hs, rfl⟩
    obtain ⟨before, r, after, hcontent, htext, hindex, -⟩ := mem_spans_iff.1 hs
    exact ⟨r, by simp [hcontent, hindex], htext⟩
  · rintro ⟨r, hr, htext⟩
    obtain ⟨before, after, hcontent, rfl⟩ := exists_append_of_getElem? hr
    have hs : ⟨before.length, Text.width (before.flatMap Inline.chars),
        Text.width (before.flatMap Inline.chars) + Text.size r.text⟩ ∈ p.spans :=
      mem_spans_iff.2 ⟨before, r, after, hcontent, htext, rfl, rfl, rfl⟩
    exact ⟨_, hs, rfl⟩
  · simpa using htiles.countP_contains offset

/-- There is only one partition: the indices are those of the runs with text, and the lengths are
    those of these runs. -/
theorem IsPartition.unique (h : p.IsPartition parts) (h' : p.IsPartition parts') :
    parts = parts' := by
  have hindex : parts.map Span.index = parts'.map Span.index := by
    refine (List.pairwise_map.2 h.increasing).eq_of_mem_iff (List.pairwise_map.2 h'.increasing)
      fun i => ?_
    rw [List.mem_map, List.mem_map, h.index, h'.index]
  refine h.tiles.eq_of_map_index_eq h'.tiles hindex fun s hs t ht hi => ?_
  obtain ⟨r, hr, -, hstop⟩ := h.run s hs
  obtain ⟨r', hr', -, hstop'⟩ := h'.run t ht
  rw [hi, hr'] at hr
  obtain rfl : r' = r := by simpa using hr
  omega

/-- The spans of a paragraph partition its text, and nothing else does. -/
theorem isPartition_iff (p : Paragraph) (parts : List Span) :
    p.IsPartition parts ↔ parts = p.spans :=
  ⟨fun h => h.unique p.isPartition_spans, fun h => h ▸ p.isPartition_spans⟩

/-- The two texts of the first run are in one span, and the run with a tab has none. -/
example : Paragraph.spans { content := [.run ⟨[.text "né", .lineBreak, .text "e"], {}⟩,
    .run ⟨[.tab], {}⟩, .rangeStart 1, .run (.ofText "!")] } = [⟨0, 0, 4⟩, ⟨3, 4, 5⟩] := by
  decide

end Paragraph

end DocTemplate
