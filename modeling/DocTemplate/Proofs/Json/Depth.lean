import DocTemplate.Json.Record
import DocTemplate.Proofs.Json.Reading
import DocTemplate.Proofs.Pointwise

/-!
# Depth

Arrays and objects are read up to a depth. What is deeper leaves something that is no value,
and nothing that is read is deeper.

* `Json.cut_eq_self`, `Json.isReadable_cut`: a value keeps its parts if, and only if, it is not
  too deep;
* `Json.depth_le_of_read?`: what is read is not too deep.
-/

namespace DocTemplate

namespace Json

/-! ## Parts of arrays and objects -/

theorem depthItems_le_iff {vs : List Json} {d : Nat} :
    depthItems vs ≤ d ↔ ∀ v ∈ vs, v.depth ≤ d := by
  induction vs with
  | nil => simp [depthItems]
  | cons v vs ih => simp [depthItems, ih]

theorem depthMembers_le_iff {ms : List (String × Json)} {d : Nat} :
    depthMembers ms ≤ d ↔ ∀ m ∈ ms, m.2.depth ≤ d := by
  induction ms with
  | nil => simp [depthMembers]
  | cons m ms ih => simp [depthMembers, ih]

/-! ## Values that are cut -/

theorem cutItems_eq_map (d : Nat) (vs : List Json) : cutItems d vs = vs.map (cut d) := by
  induction vs with
  | nil => rfl
  | cons v vs ih => rw [cutItems, ih, List.map_cons]

mutual

/-- Nothing is left out of a value that is not too deep. -/
theorem cut_eq_self : ∀ {v : Json} {d : Nat}, v.depth ≤ d → cut d v = v
  | arr items, d, h => by
    simp only [depth] at h
    rw [cut, cutItems_eq_self (d := d - 1) (by omega), Reader.nested, if_neg (by omega)]
  | obj members, d, h => by
    simp only [depth] at h
    rw [cut, cutMembers_eq_self (d := d - 1) (by omega), Reader.nested, if_neg (by omega)]
  | null, _, _ | bool _, _, _ | int _, _, _ | float _, _, _ | str _, _, _ | unreadable, _, _ => rfl

theorem cutItems_eq_self : ∀ {vs : List Json} {d : Nat}, depthItems vs ≤ d → cutItems d vs = vs
  | [], _, _ => rfl
  | v :: vs, d, h => by
    rw [depthItems, Nat.max_le] at h
    rw [cutItems, cut_eq_self h.1, cutItems_eq_self h.2]

theorem cutMembers_eq_self :
    ∀ {ms : List (String × Json)} {d : Nat}, depthMembers ms ≤ d → cutMembers d ms = ms
  | [], _, _ => rfl
  | (k, v) :: ms, d, h => by
    rw [depthMembers, Nat.max_le] at h
    rw [cutMembers, cut_eq_self h.1, cutMembers_eq_self h.2]

end

mutual

/-- A value that is too deep loses a part. -/
theorem isReadable_cut : ∀ {v : Json} {d : Nat}, d < v.depth → (cut d v).isReadable = false
  | arr items, d, h => by
    simp only [depth] at h
    rw [cut, Reader.nested]
    split
    · rfl
    · exact areReadable_cutItems (by omega)
  | obj members, d, h => by
    simp only [depth] at h
    rw [cut, Reader.nested]
    split
    · rfl
    · exact areReadableMembers_cutMembers (by omega)

theorem areReadable_cutItems :
    ∀ {vs : List Json} {d : Nat}, d < depthItems vs → areReadable (cutItems d vs) = false
  | v :: vs, d, h => by
    rw [cutItems, areReadable, Bool.and_eq_false_iff]
    rw [depthItems, lt_max_iff] at h
    exact h.imp isReadable_cut areReadable_cutItems

theorem areReadableMembers_cutMembers : ∀ {ms : List (String × Json)} {d : Nat},
    d < depthMembers ms → areReadableMembers (cutMembers d ms) = false
  | (k, v) :: ms, d, h => by
    rw [cutMembers, areReadableMembers, Bool.and_eq_false_iff]
    rw [depthMembers, lt_max_iff] at h
    exact h.imp isReadable_cut areReadableMembers_cutMembers

end

/-! ## What is read -/

namespace Reader

theorem length_lt_of_plain {α : Type} {cs rest : List Char} {found : Option (α × Rest cs)} {a : α}
    (h : plain found = some (a, rest)) : rest.length < cs.length := by
  obtain ⟨⟨b, r, hr⟩, -, hplain⟩ := Option.map_eq_some_iff.1 h
  obtain ⟨-, rfl⟩ := Prod.mk.inj hplain
  exact hr

/-- A value within brackets is not too deep if its parts are not. -/
theorem depth_nested_le {d : Nat} {v : Json} (h : v.depth ≤ d - 1 + 1) :
    (nested d v).depth ≤ d := by
  unfold nested
  split
  · exact Nat.zero_le d
  · omega

theorem depth_object_le {d : Nat} {ms : List (List Nat × Json)} (h : ∀ m ∈ ms, m.2.depth ≤ d) :
    (object ms).depth ≤ d + 1 := by
  rw [object]
  cases hnamed : ms.mapM member? with
  | none => exact Nat.zero_le _
  | some named =>
    refine Nat.succ_le_succ (depthMembers_le_iff.2 fun m hm => ?_)
    obtain ⟨m', hm', hname⟩ := (Option.mapM_eq_some_iff.1 hnamed).exists_of_mem_right hm
    obtain ⟨name, -, rfl⟩ := Option.map_eq_some_iff.1 hname
    exact h m' hm'

theorem depth_orUnreadable {j? : Option Json} (h : ∀ j ∈ j?, j.depth = 0) :
    (orUnreadable j?).depth = 0 := by
  cases j? with
  | none => rfl
  | some j => exact h j rfl

theorem depth_numeral {t : NumeralText} : ∀ j ∈ t.value?, j.depth = 0 := by
  intro j hj
  have hfloat : ∀ {x? : Option Float} {f : Float → Float},
      x?.map (fun x => Json.float (f x)) = some j → j.depth = 0 := by
    intro x? f h
    obtain ⟨x, -, rfl⟩ := Option.map_eq_some_iff.1 h
    rfl
  simp only [NumeralText.value?, Option.mem_def] at hj
  split at hj
  · split at hj
    · obtain rfl := Option.some.inj hj
      rfl
    · split at hj
      · obtain rfl := Option.some.inj hj
        rfl
      · exact hfloat hj
  · exact hfloat hj

theorem depth_of_scalar? {cs rest : List Char} {v : Json}
    (h : plain (scalar? cs) = some (v, rest)) : v.depth = 0 := by
  rw [plain_scalar?] at h
  split at h
  · cases h; rfl
  · cases h; rfl
  · cases h; rfl
  · obtain ⟨⟨t, r⟩, -, hp⟩ := Option.map_eq_some_iff.1 h
    cases hp
    exact depth_orUnreadable depth_numeral

theorem quote_of_members? {d : Nat} {cs rest : List Char} {ms : List (List Nat × Json)}
    (h : plain (members? d cs) = some (ms, rest)) : ∃ text, skipBlanks cs = '"' :: text := by
  rw [members?] at h
  split at h
  · rename_i text hskip
    exact ⟨text, hskip⟩
  · cases h

/-- What is read of a text of less than `n` characters, or of the parts between two brackets in
    it, is not too deep. -/
structure ShallowBelow (n : Nat) : Prop where
  value {cs rest : List Char} {d : Nat} {v : Json} (hcs : cs.length < n)
    (h : plain (value? d cs) = some (v, rest)) : v.depth ≤ d
  items {cs rest : List Char} {d : Nat} {vs : List Json} (hcs : cs.length < n)
    (h : plain (items? d cs) = some (vs, rest)) : depthItems vs ≤ d
  members {cs rest : List Char} {d : Nat} {ms : List (List Nat × Json)} (hcs : cs.length < n)
    (h : plain (members? d cs) = some (ms, rest)) : ∀ m ∈ ms, m.2.depth ≤ d

namespace ShallowBelow

variable {n d : Nat} {cs rest : List Char}

/-- A value: what is between its brackets is shorter. -/
theorem value_succ (hbelow : ShallowBelow n) {v : Json} (hcs : cs.length < n + 1)
    (h : plain (value? d cs) = some (v, rest)) : v.depth ≤ d := by
  have hle := length_skipBlanks_le cs
  generalize hskip : skipBlanks cs = skipped at hle
  rw [plain_value? hskip] at h
  split at h
  · cases h
  · obtain ⟨p, -, hp⟩ := Option.map_eq_some_iff.1 h
    cases hp
    rw [depth_orUnreadable (by simp +contextual [depth])]
    exact Nat.zero_le d
  · -- an array
    rename_i text
    split at h
    · cases h
      exact depth_nested_le (by simp [depth, depthItems])
    · obtain ⟨⟨vs, r⟩, hvs, hp⟩ := Option.map_eq_some_iff.1 h
      cases hp
      exact depth_nested_le (Nat.succ_le_succ (hbelow.items (by simp at hle; omega) hvs))
  · -- an object
    rename_i text
    split at h
    · cases h
      exact depth_nested_le (by simp [depth, depthMembers])
    · obtain ⟨⟨ms, r⟩, hms, hp⟩ := Option.map_eq_some_iff.1 h
      cases hp
      exact depth_nested_le (depth_object_le (hbelow.members (by simp at hle; omega) hms))
  · rw [depth_of_scalar? h]
    exact Nat.zero_le d

/-- Items: those behind the first one are a shorter text. -/
theorem items_succ (hbelow : ShallowBelow n) {vs : List Json} (hcs : cs.length < n + 1)
    (h : plain (items? d cs) = some (vs, rest)) : depthItems vs ≤ d := by
  rw [plain_items?] at h
  obtain ⟨⟨v, r⟩, hv, h⟩ := Option.bind_eq_some_iff.1 h
  have hdepth : v.depth ≤ d := hbelow.value_succ hcs hv
  have hlt := length_lt_of_plain hv
  have hle := length_skipBlanks_le r
  generalize skipBlanks r = skipped at h hle
  dsimp only at h
  split at h
  · cases h
    simpa [depthItems] using hdepth
  · obtain ⟨⟨vs', r'⟩, hvs, hp⟩ := Option.map_eq_some_iff.1 h
    cases hp
    simp only [List.length_cons] at hle
    exact Nat.max_le.2 ⟨hdepth, hbelow.items (by omega) hvs⟩
  · cases h

/-- Members: a value is behind a name, and further members behind the value. -/
theorem members_succ (hbelow : ShallowBelow n) {ms : List (List Nat × Json)}
    (hcs : cs.length < n + 1) (h : plain (members? d cs) = some (ms, rest)) :
    ∀ m ∈ ms, m.2.depth ≤ d := by
  obtain ⟨text, hskip⟩ := quote_of_members? h
  have hle := length_skipBlanks_le cs
  rw [hskip] at hle
  rw [plain_members? hskip] at h
  obtain ⟨⟨name, afterName⟩, hname, h⟩ := Option.bind_eq_some_iff.1 h
  have hlt := length_lt_of_quoted? hname
  have hle' := length_skipBlanks_le afterName
  generalize skipBlanks afterName = skipped at h hle'
  dsimp only at h
  split at h
  · obtain ⟨⟨v, r⟩, hv, h⟩ := Option.bind_eq_some_iff.1 h
    have hlt' := length_lt_of_plain hv
    have hle'' := length_skipBlanks_le r
    generalize skipBlanks r = skipped at h hle''
    simp only [List.length_cons] at hle hle'
    have hdepth : v.depth ≤ d := hbelow.value (by omega) hv
    dsimp only at h
    split at h
    · cases h
      simpa using hdepth
    · obtain ⟨⟨ms', r'⟩, hms, hp⟩ := Option.map_eq_some_iff.1 h
      cases hp
      simp only [List.length_cons] at hle''
      exact List.forall_mem_cons.2 ⟨hdepth, hbelow.members (by omega) hms⟩
    · cases h
  · cases h

end ShallowBelow

theorem shallowBelow (n : Nat) : ShallowBelow n := by
  induction n with
  | zero => exact ⟨fun h => absurd h (Nat.not_lt_zero _), fun h => absurd h (Nat.not_lt_zero _),
      fun h => absurd h (Nat.not_lt_zero _)⟩
  | succ n ih => exact ⟨ih.value_succ, ih.items_succ, ih.members_succ⟩

end Reader

theorem depth_le_of_read? {s : String} {v : Json} (h : read? s = some v) :
    v.depth ≤ Reader.maxDepth := by
  rw [read?, ofChars?] at h
  split at h
  · rename_i w rest hrest hw
    split at h
    · cases h
      exact (Reader.shallowBelow _).value (Nat.lt_succ_self _) (congrArg Reader.plain hw)
    · cases h
  · cases h

end Json

end DocTemplate
