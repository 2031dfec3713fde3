import DocTemplate.Proofs.Json.Depth
import Mathlib.Data.List.Nodup

/-!
# Records that are read back

What is read of a record with all its fields, of a choice and of a record of several shapes, when
they are written in the plainest way; and how deep a field of a record can be, in whatever way
the record is written.

* `Json.fields?_obj`, `Json.choice?_obj`, `Json.shape?_obj`: what is read of the plainest way;
* `Json.depth_lt_of_fields?`, `Json.depth_lt_of_choice?`, `Json.depth_le_of_shape?`: the depth of
  a field.
-/

namespace DocTemplate

namespace Json

/-! ## Exact values -/

theorem areExact_iff {vs : List Json} : AreExact vs ↔ ∀ v ∈ vs, v.IsExact := by
  induction vs with
  | nil => simp [AreExact]
  | cons v vs ih => simp [AreExact, ih]

mutual

/-- All parts of an exact value are values. -/
theorem IsExact.isReadable : ∀ {v : Json}, v.IsExact → v.isReadable
  | arr _, h => AreExact.areReadable h
  | obj _, h => AreExactMembers.areReadableMembers h
  | null, _ | bool _, _ | int _, _ | str _, _ => rfl

theorem AreExact.areReadable : ∀ {vs : List Json}, AreExact vs → Json.areReadable vs
  | [], _ => rfl
  | _ :: _, ⟨hv, hvs⟩ => by simp [Json.areReadable, hv.isReadable, hvs.areReadable]

theorem AreExactMembers.areReadableMembers :
    ∀ {ms : List (String × Json)}, AreExactMembers ms → Json.areReadableMembers ms
  | [], _ => rfl
  | (_, _) :: _, ⟨hv, hms⟩ => by
    simp [Json.areReadableMembers, hv.isReadable, hms.areReadableMembers]

end

theorem isExact_ofString? (s : Option String) : (ofString? s).IsExact := by
  cases s <;> trivial

/-! ## Scalar fields -/

@[simp] theorem option?_ofString? (s : Option String) :
    option? str? (some (ofString? s)) = some s := by
  cases s <;> rfl

@[simp] theorem option?_null {α : Type} (read : Json → Option α) :
    option? read (some null) = some none := rfl

@[simp] theorem option?_int {α : Type} (read : Json → Option α) (n : Int) :
    option? read (some (int n)) = (read (int n)).map some := rfl

@[simp] theorem required?_some {α : Type} (read : Json → Option α) (j : Json) :
    required? read (some j) = read j := rfl

@[simp] theorem uint8?_toNat (n : UInt8) : uint8? (.int n.toNat) = some n := by
  have h := n.toNat_lt
  simp [uint8?, intWithin?, show ((n.toNat : Nat) : Int) ≤ 255 by omega]

@[simp] theorem uint32?_toNat (n : UInt32) : uint32? (.int n.toNat) = some n := by
  have h := n.toNat_lt
  simp [uint32?, intWithin?, show ((n.toNat : Nat) : Int) ≤ 4294967295 by omega]

@[simp] theorem uint64?_toNat (n : UInt64) : uint64? (.int n.toNat) = some n := by
  have h := n.toNat_lt
  simp [uint64?, intWithin?, show ((n.toNat : Nat) : Int) ≤ 18446744073709551615 by omega]

@[simp] theorem int64?_toInt (n : Int64) : int64? (.int n.toInt) = some n := by
  have h := n.le_toInt
  have h' := n.toInt_lt
  simp [int64?, intWithin?, show -9223372036854775808 ≤ n.toInt by omega,
    show n.toInt ≤ 9223372036854775807 by omega]

/-- An element is found by its name. -/
theorem oneOf?_name {α : Type} {all : List α} {name : α → String} {access : Access} {a : α}
    (h : all.find? (fun b => name b == name a) = some a) :
    oneOf? access all name (.str (name a)) = some a := by
  cases access <;> exact h

/-! ## Lists -/

/-- A list is read back item by item. -/
theorem list?_map {α β : Type} {read : Json → Option β} {write : α → Json} {f : α → β}
    {as : List α} (h : ∀ a ∈ as, read (write a) = some (f a)) :
    list? read (.arr (as.map write)) = some (as.map f) := by
  rw [list?, Option.mapM_eq_some_iff, List.forall₂_map_left_iff, List.forall₂_map_right_iff,
    List.forall₂_same]
  exact h

/-! ## Records -/

/-- The fields of a record that has all of them in their order. -/
theorem fields?_obj {names : List String} {ms : List (String × Json)}
    (hnames : ms.map Prod.fst = names) (h : names.Nodup) :
    fields? names (.obj ms) = some (ms.map fun m => some m.2) := by
  subst hnames
  rw [fields?, if_pos]
  · rw [List.map_map]
    exact congrArg some (List.map_congr_left fun m hm => List.lookup_of_nodup h hm)
  · rw [List.all_eq_true]
    intro name _
    rw [decide_eq_true_eq, ← List.countP_eq_length_filter]
    have hcount := List.nodup_iff_count_le_one.1 h name
    rwa [List.count, List.countP_map] at hcount

/-- A choice with its name first is read as it is written. -/
@[simp] theorem choice?_obj {access : Access} {names : List String} {name : String}
    {content : Json} :
    choice? access names "type" "value" (.obj [("type", .str name), ("value", content)]) =
      some (name, access, some content) := by
  cases access <;> rfl

/-- A choice without content may have its name alone. -/
@[simp] theorem choice?_name {access : Access} {names : List String} {name : String} :
    choice? access names "type" "value" (.obj [("type", .str name)]) =
      some (name, access, none) := by
  cases access <;> rfl

/-- A record of several shapes with its shape first. -/
theorem shape?_obj {access : Access} {names : List String} {name : String}
    {ms : List (String × Json)} (h : ∀ m ∈ ms, m.1 ≠ "type") :
    shape? access names "type" (.obj (("type", .str name) :: ms)) = some (name, .obj ms) := by
  have hnone : ms.filter (fun m => m.1 == "type") = [] :=
    List.filter_eq_nil_iff.2 fun m hm => by simpa using h m hm
  have hall : ms.filter (fun m => m.1 != "type") = ms :=
    List.filter_eq_self.2 fun m hm => by simpa using h m hm
  have hname : nameOrPlace? names access (.str name) = some name := by cases access <;> rfl
  simp [shape?, hnone, hall, hname]

/-! ## The depth of a field -/

theorem depth_lt_obj {ms : List (String × Json)} {m : String × Json} (h : m ∈ ms) :
    m.2.depth < (obj ms).depth :=
  Nat.lt_succ_of_le (depthMembers_le_iff.1 (Nat.le_refl _) m h)

theorem depth_lt_arr {vs : List Json} {v : Json} (h : v ∈ vs) : v.depth < (arr vs).depth :=
  Nat.lt_succ_of_le (depthItems_le_iff.1 (Nat.le_refl _) v h)

/-- A record is as deep as its deepest field makes it. -/
theorem depth_obj_le_iff {ms : List (String × Json)} {d : Nat} :
    (obj ms).depth ≤ d ↔ 0 < d ∧ ∀ m ∈ ms, m.2.depth < d := by
  rw [depth]
  cases d with
  | zero => simp
  | succ d =>
    rw [Nat.add_le_add_iff_right, depthMembers_le_iff]
    exact ⟨fun h => ⟨Nat.succ_pos d, fun m hm => Nat.lt_succ_of_le (h m hm)⟩,
      fun h m hm => Nat.le_of_lt_succ (h.2 m hm)⟩

theorem depth_arr_le_iff {vs : List Json} {d : Nat} :
    (arr vs).depth ≤ d ↔ 0 < d ∧ ∀ v ∈ vs, v.depth < d := by
  rw [depth]
  cases d with
  | zero => simp
  | succ d =>
    rw [Nat.add_le_add_iff_right, depthItems_le_iff]
    exact ⟨fun h => ⟨Nat.succ_pos d, fun v hv => Nat.lt_succ_of_le (h v hv)⟩,
      fun h v hv => Nat.le_of_lt_succ (h.2 v hv)⟩

theorem depth_obj_le {ms : List (String × Json)} {d : Nat} (h : ∀ m ∈ ms, m.2.depth ≤ d) :
    (obj ms).depth ≤ d + 1 :=
  Nat.succ_le_succ (depthMembers_le_iff.2 h)

theorem depth_arr_map_le {α : Type} {write : α → Json} {as : List α} {d : Nat}
    (h : ∀ a ∈ as, (write a).depth ≤ d) : (arr (as.map write)).depth ≤ d + 1 :=
  Nat.succ_le_succ (depthItems_le_iff.2 (List.forall_mem_map.2 h))

@[simp] theorem depth_null : null.depth = 0 := rfl

@[simp] theorem depth_str (s : String) : (str s).depth = 0 := rfl

@[simp] theorem depth_int (n : Int) : (int n).depth = 0 := rfl

@[simp] theorem depth_ofString? (s : Option String) : (ofString? s).depth = 0 := by
  cases s <;> rfl

/-- The fields of a record are not as deep as the record. -/
theorem depth_lt_of_fields? {names : List String} {j : Json} {fs : List (Option Json)}
    (h : fields? names j = some fs) : 0 < j.depth ∧ ∀ v, some v ∈ fs → v.depth < j.depth := by
  unfold fields? at h
  split at h
  · rename_i ms
    split at h
    · cases h
      refine ⟨Nat.succ_pos _, fun v hv => ?_⟩
      obtain ⟨name, -, hlookup⟩ := List.mem_map.1 hv
      obtain ⟨before, after, rfl, -⟩ := List.lookup_eq_some_iff.1 hlookup
      exact depth_lt_obj (m := (name, v)) (by simp)
    · cases h
  · split at h
    · cases h
      refine ⟨Nat.succ_pos _, fun v hv => ?_⟩
      obtain ⟨v', hv', h⟩ := List.mem_map.1 hv
      cases h
      exact depth_lt_arr hv'
    · cases h
  · cases h

theorem eq_of_hold? {j held : Json} (h : hold? j = some held) : held = j := by
  unfold hold? at h
  split at h
  · exact (Option.some.inj h).symm
  · cases h

/-- The content of a choice is not as deep as the choice. -/
theorem depth_lt_of_choice? {access access' : Access} {names : List String} {name : String}
    {j : Json} {content : Option Json}
    (h : choice? access names "type" "value" j = some (name, access', content)) :
    0 < j.depth ∧ ∀ v ∈ content, v.depth < j.depth := by
  rw [choice?] at h
  obtain ⟨fs, hfs, h⟩ := Option.bind_eq_some_iff.1 h
  obtain ⟨hpos, hlt⟩ := depth_lt_of_fields? hfs
  refine ⟨hpos, fun v hv => ?_⟩
  split at h
  · rename_i name content'
    have hcontent : ∀ v ∈ content', v.depth < j.depth := fun v hv => hlt v (by simp_all)
    split at h
    · obtain ⟨s, -, h⟩ := Option.bind_eq_some_iff.1 h
      cases h
      exact hcontent v hv
    · obtain ⟨s, -, h⟩ := Option.bind_eq_some_iff.1 h
      split at h
      · obtain ⟨held, hheld, h⟩ := Option.bind_eq_some_iff.1 h
        cases h
        obtain ⟨v', hv', hhold⟩ := Option.bind_eq_some_iff.1 hheld
        obtain rfl := eq_of_hold? hhold
        obtain rfl := Option.some.inj hv
        exact hcontent _ hv'
      · cases h
        exact hcontent v hv
  · cases h

/-- The fields of a record of several shapes are not deeper than the record. -/
theorem depth_le_of_shape? {access : Access} {names : List String} {nameField shape : String}
    {j fields : Json} (h : shape? access names nameField j = some (shape, fields)) :
    fields.depth ≤ j.depth := by
  unfold shape? at h
  split at h
  · split at h
    · obtain ⟨s, -, h⟩ := Option.map_eq_some_iff.1 h
      cases h
      exact depth_obj_le_iff.2 ⟨Nat.succ_pos _, fun m hm => depth_lt_obj (List.mem_filter.1 hm).1⟩
    · cases h
  · obtain ⟨s, -, h⟩ := Option.map_eq_some_iff.1 h
    cases h
    exact depth_arr_le_iff.2 ⟨Nat.succ_pos _, fun v hv => depth_lt_arr (List.mem_cons_of_mem _ hv)⟩
  · cases h

/-- A list with an item that is not read is not read. -/
theorem list?_eq_none {α : Type} {read : Json → Option α} {vs : List Json} {v : Json} (hv : v ∈ vs)
    (h : read v = none) : list? read (.arr vs) = none := by
  cases hlist : list? read (.arr vs) with
  | none => rfl
  | some as =>
    obtain ⟨a, -, hread⟩ := (Option.mapM_eq_some_iff.1 hlist).exists_of_mem_left hv
    rw [h] at hread
    cases hread

/-- Every item of a list is read from an item of the array. -/
theorem exists_of_mem_list? {α : Type} {read : Json → Option α} {j : Json} {as : List α}
    (h : list? read j = some as) : ∀ a ∈ as, ∃ v, v.depth < j.depth ∧ read v = some a := by
  unfold list? at h
  split at h
  · intro a ha
    obtain ⟨v, hv, hread⟩ := (Option.mapM_eq_some_iff.1 h).exists_of_mem_right ha
    exact ⟨v, depth_lt_arr hv, hread⟩
  · cases h

/-- What is changed in no item is not changed in the list. -/
theorem map_eq_of_list? {α : Type} {read : Json → Option α} {f : α → α} {j : Json} {as : List α}
    (h : list? read j = some as) (hitem : ∀ v a, read v = some a → f a = a) : as.map f = as := by
  have hmap : as.map f = as.map id := List.map_congr_left fun a ha => by
    obtain ⟨v, -, hread⟩ := exists_of_mem_list? h a ha
    exact hitem v a hread
  rw [hmap, List.map_id]

/-- A list that is written item by item is no deeper than it was, if no item is. -/
theorem depth_le_of_list? {α : Type} {read : Json → Option α} {write : α → Json} {j : Json}
    {as : List α} (h : list? read j = some as)
    (hitem : ∀ v a, read v = some a → (write a).depth ≤ v.depth) :
    (arr (as.map write)).depth ≤ j.depth := by
  have hpos : 0 < j.depth := by
    unfold list? at h
    split at h
    · exact Nat.succ_pos _
    · cases h
  refine depth_arr_le_iff.2 ⟨hpos, fun w hw => ?_⟩
  obtain ⟨a, ha, rfl⟩ := List.mem_map.1 hw
  obtain ⟨v, hv, hread⟩ := exists_of_mem_list? h a ha
  exact (hitem v a hread).trans_lt hv

/-- The value of a field that may be absent or null, if it is neither. -/
theorem exists_of_option? {α : Type} {read : Json → Option α} {field : Option Json} {a : α}
    (h : option? read field = some (some a)) : ∃ v, field = some v ∧ read v = some a := by
  unfold option? at h
  split at h
  · cases h
  · cases h
  · obtain ⟨a', ha', h⟩ := Option.map_eq_some_iff.1 h
    cases h
    exact ⟨_, rfl, ha'⟩

end Json

end DocTemplate
