import Memograph.Expr.Evaluation
import Memograph.Proofs.Compilation
import Memograph.Proofs.Qualification

/-! Spellings of the defined variable. Inside of its context a variable can be written plainly, and
anywhere with its context in front. A body tells names apart by how they are written, so not every
spelling of the variable that it defines stands for the variable. All of them do where the
definition itself writes it plainly. Where it writes it with a dot, the plain spelling is lost to an
indexer or a local that is written so. -/

namespace Memograph

/-- In one context a variable has one plain spelling. -/
theorem eq_of_qualify_eq {written other : String} (h : isDotted written = false)
    (hother : isDotted other = false) {context : ContextPath}
    (heq : qualify context written = qualify context other) : written = other := by
  rw [qualify_of_plain h, qualify_of_plain hother] at heq
  exact congrArg QualifiedName.localName heq

namespace Definition

variable {definition : Definition} {context : ContextPath} {compiled : Compiled} {written : String}

theorem compile_name (h : definition.compile context = .ok compiled) :
    compiled.name = qualify context definition.written := by
  obtain ⟨-, -, -, globals, -, rfl⟩ := compile_ok h
  rfl

/-- The locals of a body are the names that it assigns plainly, without that of its definition. -/
theorem mem_locals_ofExpr_iff (husage : definition.usage = Usage.ofExpr definition.body)
    (written : String) :
    written ∈ definition.locals ↔
      written ∈ definition.body.targets ∧ isDotted written = false ∧
        written ≠ definition.written := by
  rw [mem_locals_iff, husage, (Usage.records_ofExpr definition.body).localAssignment,
    List.mem_eraseDups, List.mem_filter, Bool.not_eq_true', and_assoc]

/-- The indexer is plain, and not written like the variable. -/
theorem indexer_plain (h : definition.compile context = .ok compiled)
    (hindexer : definition.indexer = some written) :
    isDotted written = false ∧ written ≠ definition.written := by
  obtain ⟨-, hindexers, -⟩ := compile_ok h
  have hcan := hindexers written hindexer
  simp only [Usage.canIndex, Bool.and_eq_true, Bool.not_eq_true', bne_iff_ne] at hcan
  exact ⟨hcan.1.1.2, hcan.1.2⟩

/-- A spelling with a dot, and that of the definition, is neither an indexer nor a local. -/
theorem compile_resolve_of_reserved (husage : definition.usage = Usage.ofExpr definition.body)
    (h : definition.compile context = .ok compiled)
    (hreserved : isDotted written = true ∨ written = definition.written) :
    compiled.resolution.resolve written = .global (qualify context written) := by
  have hnot : ¬(isDotted written = false ∧ written ≠ definition.written) := by
    rintro ⟨hplain, hne⟩
    rcases hreserved with hdotted | heq
    · rw [hplain] at hdotted
      cases hdotted
    · exact hne heq
  have hlocal : written ∉ definition.locals := by
    rw [mem_locals_ofExpr_iff husage]
    exact fun hmem => hnot hmem.2
  rw [compile_resolve h, if_neg fun hindexer => hnot (indexer_plain h hindexer), if_neg hlocal]

/-- What a spelling of the defined variable stands for. Where it stands for the variable, a read of
it or of an item of it asks for the dependency, and an assignment stores the variable. -/
theorem resolve_spelling (husage : definition.usage = Usage.ofExpr definition.body)
    (hcompile : definition.compile context = .ok compiled)
    (hspells : qualify context written = compiled.name) :
    (compiled.resolution.resolve written =
      if isDotted definition.written = true ∧ isDotted written = false then
        if definition.indexer = some written then .indexer
        else if written ∈ definition.body.targets then .localName
        else .global compiled.name
      else .global compiled.name) ∧
    (compiled.resolution.resolve written = .global compiled.name → ∀ π : Type,
      (Body.read compiled.resolution written : Body π Value) =
        Body.value (.request (.read compiled.name none)) ∧
      (Expr.name written).globalName? compiled.resolution = some compiled.name ∧
      ∀ value, (Body.assign compiled.resolution written value : Body π Unit) =
        Body.ask (.store compiled.name value)) := by
  constructor
  · split
    · next hlost =>
        obtain ⟨hdotted, hplain⟩ := hlost
        have hne : written ≠ definition.written := by
          rintro rfl
          rw [hplain] at hdotted
          cases hdotted
        have hlocal : written ∈ definition.locals ↔ written ∈ definition.body.targets := by
          rw [mem_locals_ofExpr_iff husage]
          exact and_iff_left ⟨hplain, hne⟩
        rw [compile_resolve hcompile, hspells, if_congr hlocal rfl rfl]
    · next hkept =>
        rw [← hspells]
        refine compile_resolve_of_reserved husage hcompile ?_
        cases hwritten : isDotted written with
        | true => exact Or.inl rfl
        | false =>
            have hdefined : isDotted definition.written = false := by
              rw [← Bool.not_eq_true]
              exact fun hdotted => hkept ⟨hdotted, hwritten⟩
            rw [compile_name hcompile] at hspells
            exact Or.inr (eq_of_qualify_eq hwritten hdefined hspells)
  · intro hglobal π
    refine ⟨?_, ?_, fun value => ?_⟩
    · rw [Body.read, hglobal]
    · rw [Expr.globalName?, hglobal]
    · rw [Body.assign, hglobal]
      exact if_pos (compile_owner hcompile)

/-- A variable that its definition writes with a dot and its body without one. -/
def respelled : Definition :=
  .ofBody ".x" none
    (.sequence [.assign "x" (.name "y"), .binary .add (.name "x") (.name ".x")]) ""

/-- The body assigns and reads a local where it writes the variable plainly. -/
theorem resolve_spelling_respelled :
    ∃ compiled, respelled.compile .root = .ok compiled ∧
      qualify .root "x" = compiled.name ∧ compiled.resolution.resolve "x" = .localName ∧
      qualify .root ".x" = compiled.name ∧
      compiled.resolution.resolve ".x" = .global compiled.name := by
  have hcomputed : (respelled.compile .root).toOption.map Compiled.name =
      some ⟨.root, "x"⟩ := by
    decide +kernel
  cases hcompile : respelled.compile .root with
  | error cause => simp [hcompile, Except.toOption] at hcomputed
  | ok compiled =>
      rw [hcompile] at hcomputed
      have hname : compiled.name = ⟨.root, "x"⟩ := Option.some.inj hcomputed
      have hplain : qualify .root "x" = compiled.name := by
        rw [hname]
        decide +kernel
      have hdotted : qualify .root ".x" = compiled.name := by
        rw [hname]
        decide +kernel
      refine ⟨compiled, rfl, hplain, ?_, hdotted, ?_⟩
      · rw [(resolve_spelling rfl hcompile hplain).1, if_pos (by decide +kernel),
          if_neg (by decide +kernel), if_pos (by decide +kernel)]
      · rw [(resolve_spelling rfl hcompile hdotted).1]
        exact if_neg (by decide +kernel)

end Definition
end Memograph
