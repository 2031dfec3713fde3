import DocTemplate.Proofs.Directive.Dispatch
import DocTemplate.Proofs.Directive.Revision
import DocTemplate.Proofs.Document.Outline
import Mathlib.Data.List.Nodup

/-!
# Registration

Handlers are registered one after the other, on an empty registry or on the one that has the built-in
handlers. A handler with a name that is taken, or with a name twice, is refused
(`Registry.Clashes`), and the registry stays as it is. Hence the names of a registry are distinct,
whatever handlers it was given.

It is because of this that a directive has one handler. The routes of a registry can be written down
handler by handler, in a table where a later entry replaces an earlier one of the same name
(`Registry.route?`), and a directive can be looked up from the first handler on, as the desks do it:
both find the handler that declared it.

* `Registry.register_eq_error_iff`: which handlers are refused;
* `Registry.nodup_names_attempts`: the names stay distinct;
* `Registry.assigns_of_nodup`: a directive goes to the handler that declared it;
* `Desks.run_commit_iff`: the desks commit one after the other, up to the first that fails;
* `Registry.isOrderly_attempts`: all of this, after any handlers.
-/

namespace DocTemplate

namespace Registry

/-! ## Registering handlers -/

variable {r r' : Registry} {h : Handler}

/-- A name of the handler is taken, or the handler has it twice. -/
def Clashes (r : Registry) (h : Handler) : Prop :=
  ∃ name ∈ h.names, name ∈ r.names ∨ 1 < h.names.count name

/-- A handler that clashes is refused for one of its names. -/
theorem exists_register_eq_error (hclash : r.Clashes h) :
    ∃ name ∈ h.names, r.register h = .error (.duplicateDirective name) := by
  obtain ⟨name, hname, hbad⟩ := hclash
  have hsome : (r.conflict? h).isSome := by
    rw [conflict?, List.find?_isSome]
    exact ⟨name, hname, by simpa using hbad⟩
  obtain ⟨first, hfirst⟩ := Option.isSome_iff_exists.1 hsome
  refine ⟨first, List.mem_of_find?_eq_some hfirst, ?_⟩
  rw [register, hfirst]

/-- Any other handler becomes the last one. -/
theorem register_eq_ok (hclash : ¬ r.Clashes h) : r.register h = .ok ⟨r.handlers ++ [h]⟩ := by
  have hnone : r.conflict? h = none := by
    rw [conflict?, List.find?_eq_none]
    intro name hname hbad
    exact hclash ⟨name, hname, by simpa using hbad⟩
  rw [register, hnone]

theorem register_eq_error_iff : (∃ e, r.register h = .error e) ↔ r.Clashes h := by
  constructor
  · rintro ⟨e, he⟩
    by_contra hclash
    rw [register_eq_ok hclash] at he
    cases he
  · intro hclash
    obtain ⟨name, -, he⟩ := exists_register_eq_error hclash
    exact ⟨_, he⟩

/-- Names that are distinct stay so when a handler is registered. -/
theorem nodup_names_register (hr : r.names.Nodup) (hregister : r.register h = .ok r') :
    r'.names.Nodup := by
  have hclash : ¬ r.Clashes h := fun hclash => by
    obtain ⟨e, he⟩ := register_eq_error_iff.2 hclash
    rw [he] at hregister
    cases hregister
  rw [names_register hregister]
  refine List.nodup_append.2 ⟨hr, ?_, ?_⟩
  · rw [List.nodup_iff_count_le_one]
    intro name
    by_contra hcount
    have hname : name ∈ h.names := List.count_pos_iff.1 (by omega)
    exact hclash ⟨name, hname, .inr (by omega)⟩
  · rintro name htaken _ hname rfl
    exact hclash ⟨name, hname, .inl htaken⟩

/-- The registry after the attempt to register a handler. -/
def attempt (r : Registry) (h : Handler) : Registry :=
  match r.register h with
  | .ok r' => r'
  | .error _ => r

/-- The registry after attempts to register some handlers, one after the other. -/
def attempts (r : Registry) (hs : List Handler) : Registry :=
  hs.foldl attempt r

/-- Those of the handlers that are registered. -/
def admitted (r : Registry) : List Handler → List Handler
  | [] => []
  | h :: hs =>
    match r.register h with
    | .ok r' => h :: admitted r' hs
    | .error _ => admitted r hs

theorem attempt_of_clashes (hclash : r.Clashes h) : r.attempt h = r := by
  obtain ⟨name, -, he⟩ := exists_register_eq_error hclash
  rw [attempt, he]

theorem attempt_of_not_clashes (hclash : ¬ r.Clashes h) : r.attempt h = ⟨r.handlers ++ [h]⟩ := by
  rw [attempt, register_eq_ok hclash]

theorem nodup_names_attempt (hr : r.names.Nodup) (h : Handler) : (r.attempt h).names.Nodup := by
  rw [attempt]
  split
  · next hregister => exact nodup_names_register hr hregister
  · exact hr

theorem nodup_names_attempts (hr : r.names.Nodup) (hs : List Handler) :
    (r.attempts hs).names.Nodup := by
  induction hs generalizing r with
  | nil => exact hr
  | cons h hs ih => exact ih (nodup_names_attempt hr h)

/-- The handlers stand in the order in which they were registered. -/
theorem handlers_attempts (r : Registry) (hs : List Handler) :
    (r.attempts hs).handlers = r.handlers ++ r.admitted hs := by
  induction hs generalizing r with
  | nil => simp [attempts, admitted]
  | cons h hs ih =>
    have hcons : r.attempts (h :: hs) = (r.attempt h).attempts hs := rfl
    rw [hcons, ih]
    by_cases hclash : r.Clashes h
    · obtain ⟨name, -, he⟩ := exists_register_eq_error hclash
      rw [attempt_of_clashes hclash, admitted, he]
    · rw [attempt_of_not_clashes hclash, admitted, register_eq_ok hclash]
      simp

/-! ## Routes -/

/-- The routes, handler by handler: each directive with the place of its handler and the number of its
    arguments. -/
def entries (r : Registry) : List (String × Nat × Nat) :=
  r.handlers.zipIdx.flatMap fun x => x.1.signatures.map fun s => (s.1, x.2, s.2)

/-- The route of a directive. A later entry replaces an earlier one of the same name. -/
def route? (r : Registry) (name : String) : Option (Nat × Nat) :=
  r.entries.reverse.lookup name

theorem map_fst_entries (r : Registry) : r.entries.map Prod.fst = r.names := by
  have hnames : ∀ x : Handler × Nat,
      (x.1.signatures.map fun s => (s.1, x.2, s.2)).map Prod.fst = x.1.names := by
    intro x
    simp [Handler.names, Function.comp_def]
  rw [entries, List.map_flatMap, List.flatMap_congr fun x _ => hnames x, flatMap_zipIdx_fst Handler.names,
    names, signatures, List.map_flatMap]
  rfl

theorem mem_entries {name : String} {k arity : Nat} :
    (name, k, arity) ∈ r.entries ↔ ∃ h, r.handlers[k]? = some h ∧ (name, arity) ∈ h.signatures := by
  rw [entries, List.mem_flatMap]
  constructor
  · rintro ⟨⟨h, k'⟩, hmem, hs⟩
    obtain ⟨⟨name', arity'⟩, hsig, heq⟩ := List.mem_map.1 hs
    cases heq
    exact ⟨h, List.mem_zipIdx_iff_getElem?.1 hmem, hsig⟩
  · rintro ⟨h, hk, hsig⟩
    exact ⟨(h, k), List.mem_zipIdx_iff_getElem?.2 hk, List.mem_map.2 ⟨(name, arity), hsig, rfl⟩⟩

theorem route?_eq_some (hr : r.names.Nodup) {k arity : Nat} {name : String}
    (hk : r.handlers[k]? = some h) (hs : (name, arity) ∈ h.signatures) :
    r.route? name = some (k, arity) := by
  have hnodup : (r.entries.reverse.map Prod.fst).Nodup := by
    rw [List.map_reverse, map_fst_entries]
    exact List.nodup_reverse.2 hr
  have hmem : (name, k, arity) ∈ r.entries.reverse :=
    List.mem_reverse.2 (mem_entries.2 ⟨h, hk, hs⟩)
  exact List.lookup_of_nodup hnodup hmem

theorem mem_names_of_signature {name : String} {arity : Nat} (hh : h ∈ r.handlers)
    (hs : (name, arity) ∈ h.signatures) : name ∈ r.names :=
  List.mem_map.2 ⟨(name, arity), List.mem_flatMap.2 ⟨h, hh, hs⟩, rfl⟩

theorem arity?_eq_some (hr : r.names.Nodup) {name : String} {arity : Nat} (hh : h ∈ r.handlers)
    (hs : (name, arity) ∈ h.signatures) : r.arity? name = some arity :=
  List.lookup_of_nodup hr (List.mem_flatMap.2 ⟨h, hh, hs⟩)

/-- A name is that of one handler, at one place. -/
theorem place_unique (hr : r.names.Nodup) {k k' : Nat} {h' : Handler} {name : String}
    (hk : r.handlers[k]? = some h) (hk' : r.handlers[k']? = some h') (hname : name ∈ h.names)
    (hname' : name ∈ h'.names) : k = k' := by
  obtain ⟨s, hs, rfl⟩ := List.mem_map.1 hname
  obtain ⟨s', hs', hfst⟩ := List.mem_map.1 hname'
  -- The table has one route for the name, and both places are on it.
  have hroute := route?_eq_some hr hk hs
  have hroute' := route?_eq_some hr hk' hs'
  rw [hfst, hroute, Option.some.injEq, Prod.mk.injEq] at hroute'
  exact hroute'.1

theorem handler?_eq_some (hr : r.names.Nodup) {k : Nat} {name : String} (hk : r.handlers[k]? = some h)
    (hname : name ∈ h.names) : r.handler? name = some h := by
  have hsome : (r.handler? name).isSome := by
    rw [handler?, List.find?_isSome]
    exact ⟨h, List.mem_of_getElem? hk, by simpa using hname⟩
  obtain ⟨first, hfirst⟩ := Option.isSome_iff_exists.1 hsome
  have hhas : name ∈ first.names := by simpa using List.find?_some hfirst
  obtain ⟨k', hk'⟩ := List.mem_iff_getElem?.1 (List.mem_of_find?_eq_some hfirst)
  obtain rfl := place_unique hr hk hk' hname hhas
  rw [hfirst, ← hk, hk']

/-! ## Desks at work -/

/-- The desks of a registry in the course of a filling: fresh ones, and ones that have accepted
    instructions. -/
inductive AtWork (r : Registry) (settings : Settings) : Desks → Prop
  | start : AtWork r settings r.desks
  | accept {d d' : Desks} {i : Instruction} (h : AtWork r settings d)
      (ha : d.accept settings i = .ok d') : AtWork r settings d'

variable {settings : Settings} {d : Desks}

/-- There is one desk for each handler, in their order. -/
theorem AtWork.map_handler (h : r.AtWork settings d) : d.desks.map Desk.handler = r.handlers := by
  induction h with
  | start => simp [desks, Function.comp_def]
  | accept _ ha ih => rw [Desks.map_handler_accept ha, ih]

end Registry

namespace Desks

variable {settings : Settings} {i : Instruction} {name : String} {desk : Desk}

/-- The instruction goes to the desk at `k` if no desk before it is for the name. -/
theorem acceptAt?_of_first {desks : List Desk} {k : Nat} (hk : desks[k]? = some desk)
    (hname : name ∈ desk.handler.names)
    (hfirst : ∀ j b, j < k → desks[j]? = some b → name ∉ b.handler.names) :
    acceptAt? settings i name desks =
      some ((desk.accept settings i).map fun desk' => desks.set k desk') := by
  induction desks generalizing k with
  | nil => simp at hk
  | cons b desks ih =>
    cases k with
    | zero =>
      obtain rfl : b = desk := by simpa using hk
      simp [acceptAt?, hname]
    | succ k =>
      have hb : name ∉ b.handler.names := hfirst 0 b (Nat.zero_lt_succ k) rfl
      have hrest := ih (by simpa using hk) fun j b hj hb => hfirst (j + 1) b (by omega) (by simpa using hb)
      rw [acceptAt?, if_neg (by simpa using hb), hrest]
      cases desk.accept settings i <;> rfl

theorem acceptAt?_eq_none {desks : List Desk} (h : ∀ b ∈ desks, name ∉ b.handler.names) :
    acceptAt? settings i name desks = none := by
  induction desks with
  | nil => rfl
  | cons b desks ih =>
    have hb := h b List.mem_cons_self
    rw [acceptAt?, if_neg (by simpa using hb), ih fun b hb => h b (List.mem_cons_of_mem _ hb)]
    rfl

/-! ## Commitment -/

/-- The desks commit one after the other, each on the draft that the one before it leaves, up to the
    first that fails. -/
inductive Commits (filler : Filler) : List Desk → Draft → Except Error Unit → Draft → Prop
  | done {draft : Draft} : Commits filler [] draft (.ok ()) draft
  | next {desk : Desk} {desks : List Desk} {draft draft₁ draft' : Draft} {outcome : Except Error Unit}
      (h : (desk.commit filler).run draft = (.ok (), draft₁))
      (hrest : Commits filler desks draft₁ outcome draft') :
      Commits filler (desk :: desks) draft outcome draft'
  | fail {desk : Desk} {desks : List Desk} {draft draft' : Draft} {e : Error}
      (h : (desk.commit filler).run draft = (.error e, draft')) :
      Commits filler (desk :: desks) draft (.error e) draft'

theorem run_commit_iff {filler : Filler} {d : Desks} {draft draft' : Draft}
    {outcome : Except Error Unit} :
    (d.commit filler).run draft = (outcome, draft') ↔
      Commits filler d.desks draft outcome draft' := by
  obtain ⟨desks⟩ := d
  change (desks.forM fun desk => desk.commit filler).run draft = _ ↔ _
  induction desks generalizing draft with
  | nil =>
    constructor
    · intro h
      cases h
      exact .done
    · intro h
      cases h
      rfl
  | cons desk desks ih =>
    change (desk.commit filler >>= fun _ => desks.forM fun desk => desk.commit filler).run draft = _ ↔ _
    rw [Revision.run_bind]
    constructor
    · intro h
      rcases hdesk : (desk.commit filler).run draft with ⟨e | u, draft₁⟩
      · rw [hdesk] at h
        cases h
        exact .fail hdesk
      · rw [hdesk] at h
        exact .next hdesk (ih.1 h)
    · intro h
      cases h with
      | next h hrest =>
        rw [h]
        exact ih.2 hrest
      | fail h => rw [h]

end Desks

/-! ## What a registry promises -/

namespace Registry

/-- The directive of a name belongs to the handler `h`, which is at `k` and declared it with an arity. -/
structure Assigns (r : Registry) (name : String) (arity k : Nat) (h : Handler) : Prop where
  route_eq : r.route? name = some (k, arity)
  arity_eq : r.arity? name = some arity
  handler_eq : r.handler? name = some h
  defers_eq : r.defers name = h.defers name
  /-- An instruction of the name goes to the desk of the handler, and to no other one. -/
  accept_eq : ∀ settings d, r.AtWork settings d → ∀ i : Instruction, i.name.toString = name →
    ∃ desk, d.desks[k]? = some desk ∧ desk.handler = h ∧
      d.accept settings i = (desk.accept settings i).map fun desk' => ⟨d.desks.set k desk'⟩

/-- No handler has the name. -/
structure Ignores (r : Registry) (name : String) : Prop where
  route_eq : r.route? name = none
  arity_eq : r.arity? name = none
  handler_eq : r.handler? name = none
  accept_eq : ∀ settings d, r.AtWork settings d → ∀ i : Instruction, i.name.toString = name →
    d.accept settings i = .error (.unknownDirective name i.site.region.text)

variable {r : Registry} {h : Handler}

theorem assigns_of_nodup (hr : r.names.Nodup) {k arity : Nat} {name : String}
    (hk : r.handlers[k]? = some h) (hs : (name, arity) ∈ h.signatures) : r.Assigns name arity k h := by
  have hmem : h ∈ r.handlers := List.mem_of_getElem? hk
  have hname : name ∈ h.names := List.mem_map.2 ⟨_, hs, rfl⟩
  have hhandler := handler?_eq_some hr hk hname
  refine ⟨route?_eq_some hr hk hs, arity?_eq_some hr hmem hs, hhandler, ?_, ?_⟩
  · rw [defers, hhandler]
    rfl
  · rintro settings d hd i rfl
    have hhandlers := hd.map_handler
    have hdesk : (d.desks.map Desk.handler)[k]? = some h := by rw [hhandlers, hk]
    rw [List.getElem?_map, Option.map_eq_some_iff] at hdesk
    obtain ⟨desk, hdesk, rfl⟩ := hdesk
    refine ⟨desk, hdesk, rfl, ?_⟩
    -- A desk before it that is for the name would be that of the same handler.
    have hfirst : ∀ j b, j < k → d.desks[j]? = some b → i.name.toString ∉ b.handler.names := by
      intro j b hj hb hbname
      have hbhandler : r.handlers[j]? = some b.handler := by
        rw [← hhandlers, List.getElem?_map, hb]
        rfl
      have := place_unique hr hbhandler hk hbname hname
      omega
    rw [Desks.accept, Desks.acceptAt?_of_first hdesk hname hfirst]
    cases desk.accept settings i <;> rfl

theorem ignores_of_not_mem {name : String} (hname : name ∉ r.names) : r.Ignores name := by
  have hnot : ∀ h ∈ r.handlers, name ∉ h.names := by
    intro h hh hn
    obtain ⟨s, hs, rfl⟩ := List.mem_map.1 hn
    exact hname (mem_names_of_signature hh hs)
  refine ⟨?_, ?_, ?_, ?_⟩
  · rw [route?, List.lookup_eq_none_iff]
    intro entry hentry
    have hmem : entry.1 ∈ r.names := by
      rw [← map_fst_entries]
      exact List.mem_map_of_mem (List.mem_reverse.1 hentry)
    exact bne_iff_ne.2 fun heq => hname (heq ▸ hmem)
  · rw [arity?, List.lookup_eq_none_iff]
    intro s hs
    exact bne_iff_ne.2 fun heq => hname (heq ▸ List.mem_map_of_mem hs)
  · rw [handler?, List.find?_eq_none]
    intro h hh
    simpa using hnot h hh
  · rintro settings d hd i rfl
    have hdesks : ∀ b ∈ d.desks, i.name.toString ∉ b.handler.names := by
      intro b hb
      refine hnot b.handler ?_
      rw [← hd.map_handler]
      exact List.mem_map_of_mem hb
    rw [Desks.accept, Desks.acceptAt?_eq_none hdesks]

/-- A registry with distinct names: which handlers it refuses, where directives go, and in which order the
    handlers commit. -/
structure IsOrderly (r : Registry) : Prop where
  nodup : r.names.Nodup
  register_iff : ∀ h, (∃ e, r.register h = .error e) ↔ r.Clashes h
  /-- A handler that is refused leaves the registry as it is. -/
  refused : ∀ h e, r.register h = .error e →
    r.attempt h = r ∧ ∃ name ∈ h.names, e = .duplicateDirective name
  /-- Any other one becomes the last handler. -/
  admitted : ∀ h, ¬ r.Clashes h → r.attempt h = ⟨r.handlers ++ [h]⟩
  assigns : ∀ k h name arity, r.handlers[k]? = some h → (name, arity) ∈ h.signatures →
    r.Assigns name arity k h
  ignores : ∀ name, name ∉ r.names → r.Ignores name
  /-- The desks commit in the order of the handlers. -/
  commits : ∀ settings d, r.AtWork settings d → d.desks.map Desk.handler = r.handlers ∧
    ∀ filler draft outcome draft', (d.commit filler).run draft = (outcome, draft') ↔
      Desks.Commits filler d.desks draft outcome draft'

theorem isOrderly_of_nodup (hr : r.names.Nodup) : r.IsOrderly where
  nodup := hr
  register_iff _ := register_eq_error_iff
  refused h e he := by
    have hclash := register_eq_error_iff.1 ⟨e, he⟩
    obtain ⟨name, hname, he'⟩ := exists_register_eq_error hclash
    rw [he, Except.error.injEq] at he'
    exact ⟨attempt_of_clashes hclash, name, hname, he'⟩
  admitted _ := attempt_of_not_clashes
  assigns _ _ _ _ hk hs := assigns_of_nodup hr hk hs
  ignores _ := ignores_of_not_mem
  commits _ _ hd := ⟨hd.map_handler, fun _ _ _ _ => Desks.run_commit_iff⟩

/-- Whatever handlers are registered, on an empty registry or beside the built-in ones, those that are
    not refused stand in their order, and each has its directives for itself. -/
theorem isOrderly_attempts {start : Registry} (hstart : start = ⟨[]⟩ ∨ start = builtin)
    (hs : List Handler) :
    (start.attempts hs).handlers = start.handlers ++ start.admitted hs ∧
      (start.attempts hs).IsOrderly := by
  have hnodup : start.names.Nodup := by
    rcases hstart with rfl | rfl
    · exact List.nodup_nil
    · decide
  exact ⟨handlers_attempts start hs, isOrderly_of_nodup (nodup_names_attempts hnodup hs)⟩

/-- A handler that makes no edits. -/
def idleHandler (signatures : List (String × Nat)) : Handler where
  signatures
  accept _ _ := .ok none
  commit _ _ := pure ()

/-- Handlers of which the second has a name of the first one, and the third has a name twice. -/
def candidates : List Handler :=
  [idleHandler [("mark", 1), ("total", 2)], idleHandler [("clear", 0), ("mark", 1)],
    idleHandler [("sum", 1), ("sum", 2)], idleHandler [("clear", 0)]]

theorem isOrderly_attempts_builtin :
    (builtin.attempts candidates).handlers =
      builtin.handlers ++ [idleHandler [("mark", 1), ("total", 2)], idleHandler [("clear", 0)]] ∧
    (builtin.attempts candidates).IsOrderly :=
  isOrderly_attempts (.inr rfl) candidates

end Registry

end DocTemplate
