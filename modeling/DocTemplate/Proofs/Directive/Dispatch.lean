import DocTemplate.Directive.Dispatch
import DocTemplate.Proofs.Except

/-!
# Dispatch

What the desks hold after instructions were handed to them. An instruction goes to
one desk, that of the first handler with its name, and that desk gets the edit which
its handler makes of the instruction, if any.

* `Desks.exists_of_accept`: one instruction;
* `Desks.Traces.accept`: all edits on the desks come from instructions;
* `Desks.Extends`: no edit is ever lost.
-/

namespace DocTemplate

namespace Desks

variable {settings : Settings} {d d' d'' : Desks} {i : Instruction}

/-- An instruction goes to the desk of the first handler that has its name. -/
theorem exists_of_acceptAt? {name : String} {desks desks' : List Desk}
    (h : acceptAt? settings i name desks = some (.ok desks')) :
    ∃ before desk after edit, desks = before ++ desk :: after ∧
      (∀ b ∈ before, b.handler.names.contains name = false) ∧
      desk.handler.names.contains name ∧ desk.handler.accept settings i = .ok edit ∧
      desks' = before ++ { desk with edits := desk.edits ++ edit.toList } :: after := by
  induction desks generalizing desks' with
  | nil => cases h
  | cons desk desks ih =>
    rw [acceptAt?] at h
    split at h
    · next hname =>
      obtain ⟨desk', hdesk, rfl⟩ := Except.map_eq_ok.1 (Option.some.inj h)
      obtain ⟨edit, hedit, hdesk⟩ := Except.bind_eq_ok.1 hdesk
      cases hdesk
      exact ⟨[], desk, desks, edit, rfl, by simp, hname, hedit, rfl⟩
    · next hname =>
      obtain ⟨outcome, houtcome, h⟩ := Option.map_eq_some_iff.1 h
      obtain ⟨rest, rfl, rfl⟩ := Except.map_eq_ok.1 h
      obtain ⟨before, desk', after, edit, rfl, hbefore, hname', hedit, rfl⟩ := ih houtcome
      refine ⟨desk :: before, desk', after, edit, rfl, ?_, hname', hedit, rfl⟩
      intro b hb
      rcases List.mem_cons.1 hb with rfl | hb
      · simpa using hname
      · exact hbefore b hb

theorem exists_of_accept (h : d.accept settings i = .ok d') :
    ∃ before desk after edit, d.desks = before ++ desk :: after ∧
      (∀ b ∈ before, b.handler.names.contains i.name.toString = false) ∧
      desk.handler.names.contains i.name.toString ∧
      desk.handler.accept settings i = .ok edit ∧
      d'.desks = before ++ { desk with edits := desk.edits ++ edit.toList } :: after := by
  rw [accept] at h
  split at h
  · next outcome houtcome =>
    obtain ⟨desks, rfl, rfl⟩ := Except.map_eq_ok.1 h
    exact exists_of_acceptAt? houtcome
  · cases h

theorem map_handler_accept (h : d.accept settings i = .ok d') :
    d'.desks.map Desk.handler = d.desks.map Desk.handler := by
  obtain ⟨before, desk, after, edit, hd, -, -, -, hd'⟩ := exists_of_accept h
  simp [hd, hd']

/-! ## What the desks hold -/

/-- The desks are those of some handlers, and every edit on a desk is one that its
    handler makes of one of the instructions given. -/
structure Traces (settings : Settings) (handlers : List Handler) (given : Instruction → Prop)
    (d : Desks) : Prop where
  handlers : d.desks.map Desk.handler = handlers
  edits : ∀ desk ∈ d.desks, ∀ edit ∈ desk.edits, ∃ i, given i ∧
    desk.handler.names.contains i.name.toString ∧ desk.handler.accept settings i = .ok (some edit)

theorem traces_desks (registry : Registry) (given : Instruction → Prop) :
    Traces settings registry.handlers given registry.desks where
  handlers := by simp [Registry.desks, Function.comp_def]
  edits := by simp [Registry.desks]

/-- Less may be known of the instructions given. -/
theorem Traces.imp {handlers : List Handler} {given given' : Instruction → Prop}
    (h : Traces settings handlers given d) (himp : ∀ i, given i → given' i) :
    Traces settings handlers given' d where
  handlers := h.handlers
  edits desk hdesk edit hedit := by
    obtain ⟨i, hi, hspec⟩ := h.edits desk hdesk edit hedit
    exact ⟨i, himp i hi, hspec⟩

theorem Traces.accept {handlers : List Handler} {given : Instruction → Prop}
    (h : Traces settings handlers given d) (hi : given i) (ha : d.accept settings i = .ok d') :
    Traces settings handlers given d' := by
  obtain ⟨before, desk, after, edit, hd, -, hname, hedit, hd'⟩ := exists_of_accept ha
  refine ⟨(map_handler_accept ha).trans h.handlers, fun x hx e he => ?_⟩
  rw [hd', List.mem_append, List.mem_cons] at hx
  rcases hx with hx | rfl | hx
  · exact h.edits x (by simp [hd, hx]) e he
  · rcases List.mem_append.1 he with he | he
    · exact h.edits desk (by simp [hd]) e he
    · obtain rfl := Option.mem_toList.1 he
      exact ⟨i, hi, hname, hedit⟩
  · exact h.edits x (by simp [hd, hx]) e he

/-- What is on a desk of `d` is on a desk of the same handler in `d'`. -/
def Extends (d d' : Desks) : Prop :=
  ∀ desk ∈ d.desks, ∃ desk' ∈ d'.desks, desk'.handler = desk.handler ∧ desk.edits ⊆ desk'.edits

theorem Extends.refl (d : Desks) : d.Extends d :=
  fun desk hdesk => ⟨desk, hdesk, rfl, List.Subset.refl _⟩

theorem Extends.trans (h : d.Extends d') (h' : d'.Extends d'') : d.Extends d'' := by
  intro desk hdesk
  obtain ⟨desk', hdesk', hhandler, hedits⟩ := h desk hdesk
  obtain ⟨desk'', hdesk'', hhandler', hedits'⟩ := h' desk' hdesk'
  exact ⟨desk'', hdesk'', hhandler'.trans hhandler, List.Subset.trans hedits hedits'⟩

theorem extends_accept (h : d.accept settings i = .ok d') : d.Extends d' := by
  obtain ⟨before, desk, after, edit, hd, -, -, -, hd'⟩ := exists_of_accept h
  intro x hx
  rw [hd, List.mem_append, List.mem_cons] at hx
  rcases hx with hx | rfl | hx
  · exact ⟨x, by simp [hd', hx], rfl, List.Subset.refl _⟩
  · exact ⟨{ x with edits := x.edits ++ edit.toList }, by simp [hd'], rfl,
      List.subset_append_left _ _⟩
  · exact ⟨x, by simp [hd', hx], rfl, List.Subset.refl _⟩

/-- A desk has taken an instruction, and holds the edit made of it, if there is one. -/
def Holds (settings : Settings) (d : Desks) (i : Instruction) : Prop :=
  ∃ desk ∈ d.desks, desk.handler.names.contains i.name.toString ∧
    ∃ edit, desk.handler.accept settings i = .ok edit ∧ ∀ e ∈ edit, e ∈ desk.edits

theorem Holds.mono (h : d.Holds settings i) (hd : d.Extends d') : d'.Holds settings i := by
  obtain ⟨desk, hdesk, hname, edit, hedit, hmem⟩ := h
  obtain ⟨desk', hdesk', hhandler, hedits⟩ := hd desk hdesk
  rw [← hhandler] at hname hedit
  exact ⟨desk', hdesk', hname, edit, hedit, fun e he => hedits (hmem e he)⟩

theorem holds_accept (h : d.accept settings i = .ok d') : d'.Holds settings i := by
  obtain ⟨before, desk, after, edit, -, -, hname, hedit, hd'⟩ := exists_of_accept h
  refine ⟨{ desk with edits := desk.edits ++ edit.toList }, by simp [hd'], hname, edit, hedit,
    fun e he => ?_⟩
  obtain rfl := Option.mem_def.1 he
  simp

/-! ## Instructions one after the other -/

variable {is : List Instruction}

theorem map_handler_foldlM_accept (h : is.foldlM (Desks.accept settings) d = .ok d') :
    d'.desks.map Desk.handler = d.desks.map Desk.handler :=
  Except.foldlM_induction (P := fun d' : Desks => d'.desks.map Desk.handler = d.desks.map Desk.handler)
    (fun _ _ _ hd haccept => (map_handler_accept haccept).trans hd) rfl h

theorem Traces.foldlM_accept {handlers : List Handler} {given : Instruction → Prop}
    (h : Traces settings handlers given d) (his : ∀ i ∈ is, given i)
    (ha : is.foldlM (Desks.accept settings) d = .ok d') : Traces settings handlers given d' := by
  induction is generalizing d with
  | nil =>
    cases ha
    exact h
  | cons i is ih =>
    rw [List.foldlM_cons] at ha
    obtain ⟨d₁, hi, ha⟩ := Except.bind_eq_ok.1 ha
    exact ih (h.accept (his i List.mem_cons_self) hi)
      (fun i hi => his i (List.mem_cons_of_mem _ hi)) ha

/-- Instructions that are handed over are held, and nothing is lost. -/
theorem holds_foldlM_accept (h : is.foldlM (Desks.accept settings) d = .ok d') :
    d.Extends d' ∧ ∀ i ∈ is, d'.Holds settings i := by
  induction is generalizing d with
  | nil =>
    cases h
    exact ⟨.refl _, by simp⟩
  | cons i is ih =>
    rw [List.foldlM_cons] at h
    obtain ⟨d₁, hi, h⟩ := Except.bind_eq_ok.1 h
    obtain ⟨hext, hholds⟩ := ih h
    refine ⟨(extends_accept hi).trans hext, fun j hj => ?_⟩
    rcases List.mem_cons.1 hj with rfl | hj
    · exact (holds_accept hi).mono hext
    · exact hholds j hj

end Desks

namespace Call

variable {env : Environment} {settings : Settings} {scope : Value} {site : Site}
  {calls : List Call} {is : List Instruction}

/-- The instructions of calls are theirs by name, and at their site. -/
theorem map_instructions (h : instructions env settings scope site calls = .ok (some is)) :
    is.map Instruction.name = calls.map Call.name ∧ ∀ i ∈ is, i.site = site := by
  induction calls generalizing is with
  | nil =>
    cases h
    exact ⟨rfl, by simp⟩
  | cons call calls ih =>
    rw [instructions] at h
    split at h
    · obtain ⟨rest, hrest, h⟩ := Except.bind_eq_ok.1 h
      cases rest with
      | none => cases h
      | some rest =>
        cases h
        obtain ⟨hnames, hsites⟩ := ih hrest
        exact ⟨by simp [hnames], by simpa using hsites⟩
    · split at h <;> cases h

end Call

end DocTemplate
