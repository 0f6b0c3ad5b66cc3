import Memograph.Proofs.Compilation

/-! Which definitions compile. A definition is well scoped if its variable, every name of its body
and its indexer are well formed, and the indexer can be bound: it has no dot, is not the variable as
written, and is nowhere assigned. These and no others compile, in every context. What fails is told
apart by its cause: an indexer that cannot be bound is reported as such, and everything else as a
name that is not well formed. -/

namespace Memograph

namespace Usage

theorem withoutIndexer_globalAssignment (usage : Usage) (indexer : Option String) :
    (usage.withoutIndexer indexer).globalAssignment = usage.globalAssignment := by
  cases indexer <;> rfl

/-- A promoted name is assigned as a variable, if it was assigned at all. -/
theorem mem_promote_globalAssignment_iff (usage : Usage) (written name : String) :
    name ∈ (usage.promote written).globalAssignment.keys ↔
      name ∈ usage.globalAssignment.keys ∨
        name = written ∧ written ∈ usage.localAssignment.keys := by
  rw [keys_promote_globalAssignment]
  split
  · next hadded => simp [hadded.1]
  · next hkept =>
      refine (or_iff_left_of_imp ?_).symm
      rintro ⟨rfl, hlocal⟩
      exact Decidable.byContradiction fun hglobal => hkept ⟨hlocal, hglobal⟩

end Usage

/-- Names are qualified up to the first that is not well formed. -/
theorem qualifyGlobals_error {context : ContextPath} {locals candidates : List String}
    {cause : Error} (h : qualifyGlobals context locals candidates = .error cause) :
    ∃ bad ∈ candidates, isValidName bad = false ∧ cause = .unresolvedName bad := by
  induction candidates with
  | nil => cases h
  | cons first candidates ih =>
      have hlater : qualifyGlobals context locals candidates = .error cause →
          ∃ bad ∈ first :: candidates, isValidName bad = false ∧ cause = .unresolvedName bad := by
        intro hrest
        obtain ⟨bad, hmem, hbad⟩ := ih hrest
        exact ⟨bad, List.mem_cons_of_mem first hmem, hbad⟩
      unfold qualifyGlobals at h
      split at h
      · exact hlater h
      · split at h
        · cases hrest : qualifyGlobals context locals candidates with
          | error other =>
              rw [hrest] at h
              cases h
              exact hlater hrest
          | ok globals =>
              rw [hrest] at h
              cases h
        · next hfirst =>
            cases h
            exact ⟨first, List.mem_cons_self, Bool.eq_false_iff.mpr hfirst, rfl⟩

namespace Definition

/-- Whether the indexer of a definition, if it has one, can be bound in its body. -/
def BindsIndexer (definition : Definition) : Prop :=
  ∀ indexer, definition.indexer = some indexer →
    isValidName indexer = true ∧ isDotted indexer = false ∧ indexer ≠ definition.written ∧
      indexer ∉ definition.body.targets

instance (definition : Definition) : Decidable definition.BindsIndexer :=
  inferInstanceAs (Decidable (∀ indexer ∈ definition.indexer,
    isValidName indexer = true ∧ isDotted indexer = false ∧ indexer ≠ definition.written ∧
      indexer ∉ definition.body.targets))

/-- Whether a name stands in a body, as a variable or as what is assigned. -/
def Mentions (definition : Definition) (name : String) : Prop :=
  name ∈ definition.body.names ∨ name ∈ definition.body.targets

structure WellScoped (definition : Definition) : Prop where
  written : isValidName definition.written = true
  indexer : definition.BindsIndexer
  names : ∀ name, definition.Mentions name → isValidName name = true

/-- What a definition that does not compile fails with. The defined name comes first, then the
indexer. -/
theorem compile_error {definition : Definition} {context : ContextPath} {cause : Error}
    (h : definition.compile context = .error cause) :
    (isValidName definition.written = false ∧ cause = .unresolvedName definition.written) ∨
    (isValidName definition.written = true ∧ ∃ indexer, definition.indexer = some indexer ∧
      definition.usage.canIndex definition.written indexer = false ∧
      cause = .unboundIndexer definition.written indexer) ∨
    ((∀ indexer, definition.indexer = some indexer →
        definition.usage.canIndex definition.written indexer = true) ∧
      ∃ bad ∈ definition.locals ++ definition.boundUsage.globalCandidates,
        isValidName bad = false ∧ cause = .unresolvedName bad) := by
  unfold compile at h
  dsimp only at h
  split at h
  · next hwritten =>
      cases h
      exact Or.inl ⟨by simpa using hwritten, rfl⟩
  · next hwritten =>
      refine Or.inr ?_
      split at h
      · next hindexer =>
          cases h
          refine Or.inl ⟨by simpa using hwritten, ?_⟩
          cases hsome : definition.indexer with
          | none => simp [hsome] at hindexer
          | some indexer => exact ⟨indexer, rfl, by simpa [hsome] using hindexer, rfl⟩
      · next hindexer =>
          refine Or.inr ⟨fun indexer hsome => by simpa [hsome] using hindexer, ?_⟩
          split at h
          · next bad hbad =>
              cases h
              have hinvalid := List.find?_some hbad
              exact ⟨bad, List.mem_append_left _ (List.mem_of_find?_eq_some hbad),
                by simpa using hinvalid, rfl⟩
          · cases hglobals : qualifyGlobals context definition.locals
                definition.boundUsage.globalCandidates with
            | error other =>
                obtain ⟨bad, hmem, hbad⟩ := qualifyGlobals_error hglobals
                unfold locals boundUsage at hglobals
                rw [hglobals] at h
                cases h
                exact ⟨bad, List.mem_append_right _ hmem, hbad⟩
            | ok globals =>
                unfold locals boundUsage at hglobals
                rw [hglobals] at h
                cases h

section Scope

variable {definition : Definition} (husage : definition.usage = Usage.ofExpr definition.body)

include husage

/-- The tables of a body find each plain assignment of the indexer. -/
theorem bindsIndexer_iff : definition.BindsIndexer ↔ ∀ indexer, definition.indexer = some indexer →
    definition.usage.canIndex definition.written indexer = true := by
  unfold BindsIndexer
  refine forall₂_congr fun indexer _ => ?_
  have hcontains : definition.usage.localAssignment.contains indexer = true ↔
      indexer ∈ definition.body.targets ∧ isDotted indexer = false := by
    rw [Table.contains_iff, husage, (Usage.records_ofExpr definition.body).localAssignment,
      List.mem_eraseDups, List.mem_filter, Bool.not_eq_true']
  simp only [Usage.canIndex, Bool.and_eq_true, Bool.not_eq_true', bne_iff_ne,
    ← Bool.not_eq_true (definition.usage.localAssignment.contains indexer), hcontains]
  tauto

/-- The names that compiling looks at are those of the body, but for the defined one, which it knows
to be well formed, and the indexer. -/
theorem mem_looked_at_iff {name : String} (hwritten : name ≠ definition.written) :
    name ∈ definition.locals ++ definition.boundUsage.globalCandidates ↔
      name ∈ definition.body.targets ∨
        name ∈ definition.body.names ∧ definition.indexer ≠ some name := by
  have hrecords := Usage.records_ofExpr definition.body
  have hlocal := definition.mem_locals_iff name
  have hglobal : name ∈ definition.boundUsage.globalAssignment.keys ↔
      name ∈ definition.usage.globalAssignment.keys := by
    rw [boundUsage, Usage.mem_promote_globalAssignment_iff, Usage.withoutIndexer_globalAssignment]
    exact or_iff_left fun h => hwritten h.1
  have hread : name ∈ definition.boundUsage.accessing.keys ↔
      name ∈ definition.usage.accessing.keys ∧ definition.indexer ≠ some name := by
    rw [boundUsage, Usage.promote_accessing, Usage.keys_withoutIndexer_accessing, List.mem_filter,
      decide_eq_true_eq]
  rw [Usage.globalCandidates, List.mem_append, List.mem_append, hlocal, hglobal, hread, husage,
    hrecords.accessing, hrecords.localAssignment, hrecords.globalAssignment]
  simp only [List.mem_eraseDups, List.mem_filter, Bool.not_eq_true']
  cases isDotted name <;> simp [hwritten]
  all_goals tauto

/-- A definition that does not compile fails with its indexer if the variable is well formed and the
indexer cannot be bound, and with a name of its own that is not well formed otherwise. -/
theorem compile_error_cause {context : ContextPath} {cause : Error}
    (h : definition.compile context = .error cause) :
    if isValidName definition.written = true ∧ ¬definition.BindsIndexer then
      ∃ indexer, definition.indexer = some indexer ∧
        cause = .unboundIndexer definition.written indexer
    else
      ∃ name, (name = definition.written ∨ definition.Mentions name) ∧
        isValidName name = false ∧ cause = .unresolvedName name := by
  have hbinds := bindsIndexer_iff husage
  rcases compile_error h with
    ⟨hwritten, hcause⟩ | ⟨hwritten, indexer, hsome, hcannot, hcause⟩ |
      ⟨hcan, name, hmem, hname, hcause⟩
  · rw [if_neg (by simp [hwritten])]
    exact ⟨definition.written, Or.inl rfl, hwritten, hcause⟩
  · have hunbound : ¬definition.BindsIndexer := by
      rw [hbinds]
      intro hcan
      rw [hcan indexer hsome] at hcannot
      cases hcannot
    rw [if_pos ⟨hwritten, hunbound⟩]
    exact ⟨indexer, hsome, hcause⟩
  · rw [if_neg fun hunbound => hunbound.2 (hbinds.mpr hcan)]
    refine ⟨name, ?_, hname, hcause⟩
    by_cases hwritten : name = definition.written
    · exact Or.inl hwritten
    · refine Or.inr (Or.symm ?_)
      exact ((mem_looked_at_iff husage hwritten).mp hmem).imp_right And.left

/-- What compiles has names that were looked at and an indexer that was bound. -/
theorem wellScoped_of_compile {context : ContextPath} {compiled : Compiled}
    (h : definition.compile context = .ok compiled) : definition.WellScoped := by
  obtain ⟨hwritten, hcan, hlocals, globals, hglobals, -⟩ := compile_ok h
  have hindexer := (bindsIndexer_iff husage).mpr hcan
  refine ⟨hwritten, hindexer, fun name hmentions => ?_⟩
  by_cases hself : name = definition.written
  · rwa [hself]
  by_cases hindex : definition.indexer = some name
  · exact (hindexer name hindex).1
  -- Any other name is a local or a variable, and both were looked at.
  have hmem := (mem_looked_at_iff husage hself).mpr (hmentions.symm.imp_right (⟨·, hindex⟩))
  by_cases hlocal : name ∈ definition.locals
  · exact hlocals name hlocal
  · exact (qualifyGlobals_ok hglobals).2 name ((List.mem_append.mp hmem).resolve_left hlocal)
      hlocal

theorem exists_compile (h : definition.WellScoped) (context : ContextPath) :
    ∃ compiled, definition.compile context = .ok compiled := by
  cases hcompile : definition.compile context with
  | ok compiled => exact ⟨compiled, rfl⟩
  | error cause =>
      have hcause := compile_error_cause husage hcompile
      rw [if_neg fun hunbound => hunbound.2 h.indexer] at hcause
      obtain ⟨name, rfl | hmentions, hname, -⟩ := hcause
      · rw [h.written] at hname
        cases hname
      · rw [h.names name hmentions] at hname
        cases hname

end Scope

/-- A definition with the usage of its body compiles, whatever the context, exactly if it is well
scoped. One that does not fails with its indexer if the variable is well formed and the indexer
cannot be bound, and with a name of its own that is not well formed otherwise. -/
theorem compile_scoping {definition : Definition}
    (husage : definition.usage = Usage.ofExpr definition.body) (context : ContextPath) :
    ((∃ compiled, definition.compile context = .ok compiled) ↔ definition.WellScoped) ∧
    ∀ cause, definition.compile context = .error cause →
      if isValidName definition.written = true ∧ ¬definition.BindsIndexer then
        ∃ indexer, definition.indexer = some indexer ∧
          cause = .unboundIndexer definition.written indexer
      else
        ∃ name, (name = definition.written ∨ definition.Mentions name) ∧
          isValidName name = false ∧ cause = .unresolvedName name := by
  refine ⟨⟨?_, fun hscoped => exists_compile husage hscoped context⟩,
    fun cause h => compile_error_cause husage h⟩
  rintro ⟨compiled, h⟩
  exact wellScoped_of_compile husage h

/-- Items of a variable at a place that another one says, by way of what the place is assigned
to. -/
def placed (place target : String) : Definition :=
  .ofBody "v" (some "i")
    (.sequence
      [.assign target (.item (.name "w") (.binary .add (.name "i") (.name place))),
        .name target]) ""

/-- It compiles over a well formed name, fails with a name that is none, and with its indexer where
it assigns that, whatever other names it has. -/
theorem compile_scoping_placed :
    (∃ compiled, (placed "s.y" "t").compile .root = .ok compiled) ∧
    (∃ name, (placed "s..y" "t").compile .root = .error (.unresolvedName name) ∧
      (placed "s..y" "t").Mentions name ∧ isValidName name = false) ∧
    (placed "s..y" "i").compile .root = .error (.unboundIndexer "v" "i") := by
  refine ⟨(compile_scoping rfl .root).1.mpr ⟨by decide +kernel, by decide +kernel, ?_⟩, ?_, ?_⟩
  · have hnames : ((placed "s.y" "t").body.names ++ (placed "s.y" "t").body.targets).all
        isValidName = true := by
      decide +kernel
    intro name hmentions
    exact List.all_eq_true.mp hnames name (List.mem_append.mpr hmentions)
  · cases hcompile : (placed "s..y" "t").compile .root with
    | ok compiled =>
        have hscoped := (compile_scoping rfl .root).1.mp ⟨compiled, hcompile⟩
        have hname := hscoped.names "s..y" (Or.inl (by decide +kernel))
        exact absurd hname (by decide +kernel)
    | error cause =>
        have hcause := (compile_scoping rfl .root).2 cause hcompile
        rw [if_neg fun hunbound => hunbound.2 (by decide +kernel)] at hcause
        obtain ⟨name, hfound, hname, rfl⟩ := hcause
        refine ⟨name, rfl, hfound.resolve_left ?_, hname⟩
        rintro rfl
        exact absurd hname (by decide +kernel)
  · cases hcompile : (placed "s..y" "i").compile .root with
    | ok compiled =>
        have hscoped := (compile_scoping rfl .root).1.mp ⟨compiled, hcompile⟩
        exact absurd hscoped.indexer (by decide +kernel)
    | error cause =>
        have hcause := (compile_scoping rfl .root).2 cause hcompile
        rw [if_pos ⟨by decide +kernel, by decide +kernel⟩] at hcause
        obtain ⟨indexer, hindexer, rfl⟩ := hcause
        cases hindexer
        rfl

end Definition
end Memograph
