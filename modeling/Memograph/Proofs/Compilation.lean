import Memograph.Proofs.Names

/-! What compiling gives. A definition that compiles has each name of its body bound by one rule:
the indexer first, then the locals, and every other name is a variable of the context. Its reads
are the names that the rule makes variables, each once and in the order of the walk. -/

namespace Memograph

/-- The variable that a written name stands for, if it stands for one. -/
def Resolution.global? (resolution : Resolution) (written : String) : Option QualifiedName :=
  match resolution.resolve written with
  | .global name => some name
  | .indexer | .localName => none

namespace Usage

theorem keys_promote_localAssignment (usage : Usage) (written : String) :
    (usage.promote written).localAssignment.keys =
      usage.localAssignment.keys.filter fun name => name ≠ written := by
  unfold promote
  cases hwritten : usage.localAssignment.get? written with
  | none =>
      rw [Table.get?_eq_none_iff] at hwritten
      symm
      rw [List.filter_eq_self]
      intro name hname
      have hne : name ≠ written := fun heq => hwritten (heq ▸ hname)
      simpa using hne
  | some count => exact Table.keys_erase _ _

theorem keys_promote_globalAssignment (usage : Usage) (written : String) :
    (usage.promote written).globalAssignment.keys =
      if written ∈ usage.localAssignment.keys ∧ written ∉ usage.globalAssignment.keys then
        usage.globalAssignment.keys ++ [written]
      else usage.globalAssignment.keys := by
  unfold promote
  cases hwritten : usage.localAssignment.get? written with
  | none =>
      rw [Table.get?_eq_none_iff] at hwritten
      rw [if_neg fun h => hwritten h.1]
  | some count =>
      have hmem := Table.mem_keys_of_get? hwritten
      dsimp only
      rw [keys_countUp]
      by_cases hglobal : written ∈ usage.globalAssignment.keys <;> simp [hmem, hglobal]

theorem promote_accessing (usage : Usage) (written : String) :
    (usage.promote written).accessing = usage.accessing := by
  unfold promote
  split <;> rfl

theorem withoutIndexer_localAssignment (usage : Usage) (indexer : Option String) :
    (usage.withoutIndexer indexer).localAssignment = usage.localAssignment := by
  cases indexer <;> rfl

theorem keys_withoutIndexer_accessing (usage : Usage) (indexer : Option String) :
    (usage.withoutIndexer indexer).accessing.keys =
      usage.accessing.keys.filter fun name => indexer ≠ some name := by
  cases indexer with
  | none => simp [withoutIndexer]
  | some indexer =>
      simp only [withoutIndexer, Table.keys_erase, ne_eq, Option.some.injEq]
      congr 1
      funext name
      simp [eq_comm]

end Usage

theorem qualifyGlobals_ok {context : ContextPath} {locals candidates : List String}
    {globals : List (String × QualifiedName)}
    (h : qualifyGlobals context locals candidates = .ok globals) :
    globals = (candidates.filter fun name => name ∉ locals).map
        (fun name => (name, qualify context name)) ∧
      ∀ name ∈ candidates, name ∉ locals → isValidName name = true := by
  induction candidates generalizing globals with
  | nil =>
      cases h
      exact ⟨rfl, fun _ hname => absurd hname List.not_mem_nil⟩
  | cons first candidates ih =>
      unfold qualifyGlobals at h
      by_cases hlocal : first ∈ locals
      · rw [if_pos hlocal] at h
        obtain ⟨hglobals, hvalid⟩ := ih h
        refine ⟨by simpa [hlocal] using hglobals, ?_⟩
        rintro name (_ | ⟨_, hname⟩) hnot
        · exact absurd hlocal hnot
        · exact hvalid name hname hnot
      · rw [if_neg hlocal] at h
        by_cases hfirst : isValidName first = true
        · rw [if_pos hfirst] at h
          cases hrest : qualifyGlobals context locals candidates with
          | error cause =>
              rw [hrest] at h
              cases h
          | ok rest =>
              rw [hrest] at h
              cases h
              obtain ⟨hglobals, hvalid⟩ := ih hrest
              refine ⟨by simp [hlocal, hglobals], ?_⟩
              rintro name (_ | ⟨_, hname⟩) hnot
              · exact hfirst
              · exact hvalid name hname hnot
        · rw [if_neg hfirst] at h
          cases h

namespace Definition

/-- The usage of a definition once its indexer is bound and its own name is a variable. -/
def boundUsage (definition : Definition) : Usage :=
  (definition.usage.withoutIndexer definition.indexer).promote definition.written

/-- The locals of a definition. -/
def locals (definition : Definition) : List String := definition.boundUsage.localAssignment.keys

theorem mem_locals_iff (definition : Definition) (name : String) :
    name ∈ definition.locals ↔
      name ∈ definition.usage.localAssignment.keys ∧ name ≠ definition.written := by
  rw [locals, boundUsage, Usage.keys_promote_localAssignment,
    Usage.withoutIndexer_localAssignment, List.mem_filter, decide_eq_true_eq]

theorem written_notMem_locals (definition : Definition) :
    definition.written ∉ definition.locals := by
  rw [mem_locals_iff]
  exact fun hmem => hmem.2 rfl

/-- All that a compiled definition says of the definition and the context it comes from. -/
theorem compile_ok {definition : Definition} {context : ContextPath} {compiled : Compiled}
    (h : definition.compile context = .ok compiled) :
    isValidName definition.written = true ∧
      (∀ indexer, definition.indexer = some indexer →
        definition.usage.canIndex definition.written indexer = true) ∧
      (∀ name ∈ definition.locals, isValidName name = true) ∧
      ∃ globals, qualifyGlobals context definition.locals
          definition.boundUsage.globalCandidates = .ok globals ∧
        compiled =
          { name := qualify context definition.written
            reads := (definition.boundUsage.accessing.keys.filterMap
              ((Table.ofList globals).insert definition.written
                (qualify context definition.written)).get?).eraseDups
            resolution :=
              { context
                owner := some (qualify context definition.written)
                indexer := definition.indexer
                locals := definition.locals
                globals := (Table.ofList globals).insert definition.written
                  (qualify context definition.written) }
            body := definition.body
            source := definition.source } := by
  unfold compile at h
  dsimp only at h
  split at h
  · cases h
  · next hwritten =>
      split at h
      · cases h
      · next hindexer =>
          split at h
          · cases h
          · next hlocals =>
              cases hglobals : qualifyGlobals context definition.locals
                  definition.boundUsage.globalCandidates with
              | error cause =>
                  unfold locals boundUsage at hglobals
                  rw [hglobals] at h
                  cases h
              | ok globals =>
                  refine ⟨by simpa using hwritten, ?_, ?_, globals, rfl, ?_⟩
                  · intro indexer hsome
                    rw [hsome] at hindexer
                    simpa using hindexer
                  · intro name hname
                    have := List.find?_eq_none.mp hlocals name hname
                    simpa using this
                  · unfold locals boundUsage at hglobals
                    rw [hglobals] at h
                    cases h
                    rfl

section Bindings

variable {definition : Definition} {context : ContextPath} {compiled : Compiled}
  (h : definition.compile context = .ok compiled)

include h

theorem compile_owner : compiled.resolution.owner = some compiled.name := by
  obtain ⟨-, -, -, globals, -, rfl⟩ := compile_ok h
  rfl

theorem compile_body : compiled.body = definition.body := by
  obtain ⟨-, -, -, globals, -, rfl⟩ := compile_ok h
  rfl

/-- The rule of binding: the indexer, then the locals, then the variables of the context. -/
theorem compile_resolve (written : String) :
    compiled.resolution.resolve written =
      if definition.indexer = some written then .indexer
      else if written ∈ definition.locals then .localName
      else .global (qualify context written) := by
  obtain ⟨-, -, -, globals, hglobals, rfl⟩ := compile_ok h
  obtain ⟨rfl, -⟩ := qualifyGlobals_ok hglobals
  unfold Resolution.resolve
  dsimp only
  rw [Table.get?_insert, Table.get?_ofList_map]
  by_cases hwritten : written = definition.written
  · simp [hwritten]
  · by_cases hcandidate : written ∈ List.filter (fun name => decide (name ∉ definition.locals))
        definition.boundUsage.globalCandidates
    · simp only [hwritten, hcandidate, if_true, if_false, Option.getD_some]
    · simp only [hwritten, hcandidate, if_false, Option.getD_none]

theorem compile_global? (written : String) :
    compiled.resolution.global? written =
      if definition.indexer = some written ∨ written ∈ definition.locals then none
      else some (qualify context written) := by
  unfold Resolution.global?
  rw [compile_resolve h]
  by_cases hindexer : definition.indexer = some written
  · simp [hindexer]
  · by_cases hlocal : written ∈ definition.locals <;> simp [hindexer, hlocal]

/-- The reads are the accessed names that stand for variables. -/
theorem compile_reads :
    compiled.reads =
      (definition.usage.accessing.keys.filterMap compiled.resolution.global?).eraseDups := by
  have hresolve := compile_global? h
  obtain ⟨-, -, -, globals, hglobals, hcompiled⟩ := compile_ok h
  obtain ⟨rfl, -⟩ := qualifyGlobals_ok hglobals
  have hkeys : definition.boundUsage.accessing.keys =
      definition.usage.accessing.keys.filter fun name => definition.indexer ≠ some name := by
    rw [boundUsage, Usage.promote_accessing, Usage.keys_withoutIndexer_accessing]
  have hskip : definition.usage.accessing.keys.filterMap compiled.resolution.global? =
      definition.boundUsage.accessing.keys.filterMap compiled.resolution.global? := by
    rw [hkeys, List.filterMap_filter]
    apply List.filterMap_congr
    intro name _
    by_cases hindexer : definition.indexer = some name
    · simp [hindexer, hresolve]
    · simp [hindexer]
  rw [hskip, hcompiled]
  dsimp only
  congr 1
  apply List.filterMap_congr
  intro name hname
  have hindexer : definition.indexer ≠ some name := by
    rw [hkeys, List.mem_filter, decide_eq_true_eq] at hname
    exact hname.2
  have hcandidate : name ∈ definition.boundUsage.globalCandidates :=
    List.mem_append_left _ hname
  rw [hcompiled] at hresolve
  rw [hresolve, Table.get?_insert, Table.get?_ofList_map]
  by_cases hwritten : name = definition.written
  · have hlocal := written_notMem_locals definition
    rw [← hwritten] at hlocal ⊢
    simp [hindexer, hlocal]
  · by_cases hlocal : name ∈ definition.locals
    · simp [hwritten, hlocal]
    · simp [hwritten, hlocal, hindexer, hcandidate]

/-- Of a definition whose usage is that of its body, the reads are the variables of the body. -/
theorem compile_reads_ofExpr (husage : definition.usage = Usage.ofExpr definition.body) :
    compiled.reads =
      (definition.body.names.filterMap compiled.resolution.global?).eraseDups := by
  rw [compile_reads h, husage, (Usage.records_ofExpr definition.body).accessing,
    Lists.eraseDups_filterMap_eraseDups]

end Bindings

end Definition
end Memograph
