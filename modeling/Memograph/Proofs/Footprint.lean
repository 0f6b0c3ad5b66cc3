import Memograph.Procedure
import Memograph.Proofs.Compilation

/-! What a body asks of its environment. A footprint bounds the variables that a body reads, those
that it assigns with a cascade and those that it only stores. A dialogue follows a footprint if its
requests stay inside of it, whatever it is replied, if the first failed read ends it, and if it
does not look at what an assignment replies. Every run of an expression follows the footprint of
the expression, and before it succeeds it has read every variable of it. -/

namespace Memograph

variable {π : Type}

/-- The variables that a body reads, assigns with a cascade, and only stores. -/
structure Footprint where
  reads : List QualifiedName
  assigns : List QualifiedName
  stores : List QualifiedName

namespace Footprint

/-- Whether a footprint lies inside of another. -/
structure Within (inner outer : Footprint) : Prop where
  reads : inner.reads ⊆ outer.reads
  assigns : inner.assigns ⊆ outer.assigns
  stores : inner.stores ⊆ outer.stores

/-- The footprint of names that are read and names that are assigned. -/
def ofNames (resolution : Resolution) (names targets : List String) : Footprint where
  reads := names.filterMap resolution.global?
  assigns := (targets.filterMap resolution.global?).filter fun name =>
    resolution.owner ≠ some name
  stores := (targets.filterMap resolution.global?).filter fun name =>
    resolution.owner = some name

/-- The footprint of an expression whose names are bound. -/
def ofExpr (resolution : Resolution) (expr : Expr) : Footprint :=
  ofNames resolution expr.names expr.targets

theorem Within.refl (footprint : Footprint) : footprint.Within footprint :=
  ⟨fun _ h => h, fun _ h => h, fun _ h => h⟩

theorem within_ofNames {resolution : Resolution} {names names' targets targets' : List String}
    {outer : Footprint} (h : (ofNames resolution names' targets').Within outer)
    (hnames : names ⊆ names') (htargets : targets ⊆ targets') :
    (ofNames resolution names targets).Within outer where
  reads := fun _ hname => h.reads (List.filterMap_subset _ hnames hname)
  assigns := fun _ hname => h.assigns
    (List.filter_subset _ (List.filterMap_subset _ htargets) hname)
  stores := fun _ hname => h.stores
    (List.filter_subset _ (List.filterMap_subset _ htargets) hname)

end Footprint

namespace Dialogue

variable {α β : Type}

/-- A dialogue inside of a footprint that has already read some variables. Where it succeeds, `post`
holds of all that it has read and of its result. -/
inductive Follows (footprint : Footprint) (post : List QualifiedName → α → Prop) :
    List QualifiedName → Dialogue π (Except Error α) → Prop
  | failed {asked : List QualifiedName} (cause : Error) :
      Follows footprint post asked (.done (.error cause))
  | done {asked : List QualifiedName} {result : α} (hpost : post asked result) :
      Follows footprint post asked (.done (.ok result))
  | read {asked : List QualifiedName} {name : QualifiedName} {index : Option Int64}
      {next : Except Error Value → Dialogue π (Except Error α)} (hname : name ∈ footprint.reads)
      (hfailed : ∀ cause, next (.error cause) = .done (.error cause))
      (hnext : ∀ value, Follows footprint post (name :: asked) (next (.ok value))) :
      Follows footprint post asked (.ask (.read name index) next)
  | assign {asked : List QualifiedName} {name : QualifiedName} {value : Value}
      {rest : Dialogue π (Except Error α)} (hname : name ∈ footprint.assigns)
      (hrest : Follows footprint post asked rest) :
      Follows footprint post asked (.ask (.assign name value) fun _ => rest)
  | store {asked : List QualifiedName} {name : QualifiedName} {value : Value}
      {rest : Dialogue π (Except Error α)} (hname : name ∈ footprint.stores)
      (hrest : Follows footprint post asked rest) :
      Follows footprint post asked (.ask (.store name value) fun _ => rest)

/-- A dialogue that follows a footprint is gone on with by one that follows it too. -/
theorem Follows.bind {footprint : Footprint} {post : List QualifiedName → β → Prop}
    {asked : List QualifiedName} {d : Dialogue π (Except Error α)}
    {f : Except Error α → Dialogue π (Except Error β)}
    (hfailed : ∀ cause, f (.error cause) = .done (.error cause))
    (h : Follows footprint (fun asked result => Follows footprint post asked (f (.ok result)))
      asked d) :
    Follows footprint post asked (d.bind f) := by
  induction h with
  | failed cause =>
      rw [done_bind, hfailed]
      exact .failed cause
  | done hpost => exact hpost
  | read hname hnext _ ih =>
      refine .read hname (fun cause => ?_) ih
      rw [hnext, done_bind, hfailed]
  | assign hname _ ih => exact .assign hname ih
  | store hname _ ih => exact .store hname ih

theorem Follows.imp {footprint : Footprint} {post post' : List QualifiedName → α → Prop}
    {asked : List QualifiedName} {d : Dialogue π (Except Error α)}
    (himp : ∀ after result, post after result → post' after result)
    (h : Follows footprint post asked d) : Follows footprint post' asked d := by
  induction h with
  | failed cause => exact .failed cause
  | done hpost => exact .done (himp _ _ hpost)
  | read hname hnext _ ih => exact .read hname hnext ih
  | assign hname _ ih => exact .assign hname ih
  | store hname _ ih => exact .store hname ih

end Dialogue

/-! ### Parts of a run -/

namespace Body

variable {α β : Type}

/-- Whether a part of a run follows a footprint and, where it succeeds, has read some names. -/
def Asks (footprint : Footprint) (names : List QualifiedName) (part : Body π α) : Prop :=
  ∀ (locals : Table String Value) (asked : List QualifiedName),
    Dialogue.Follows footprint (fun after _ => ∀ name, name ∈ asked ∨ name ∈ names → name ∈ after)
      asked (part locals)

theorem Asks.pure (footprint : Footprint) (result : α) :
    Asks footprint [] (Pure.pure result : Body π α) := by
  intro locals asked
  refine .done fun name hname => ?_
  simpa using hname

theorem Asks.bind {footprint : Footprint} {names names' : List QualifiedName} {part : Body π α}
    {f : α → Body π β} (hpart : Asks footprint names part)
    (hf : ∀ result, Asks footprint names' (f result)) :
    Asks footprint (names ++ names') (part >>= f) := by
  intro locals asked
  change Dialogue.Follows _ _ asked (Dialogue.bind (part locals)
    (ExceptT.bindCont fun state : α × Table String Value => f state.1 state.2))
  refine Dialogue.Follows.bind (fun _ => rfl) ((hpart locals asked).imp ?_)
  intro middle result hmiddle
  refine (hf result.1 result.2 middle).imp ?_
  intro after _ hafter name hname
  rw [List.mem_append] at hname
  rcases hname with hname | hname | hname
  · exact hafter name (Or.inl (hmiddle name (Or.inl hname)))
  · exact hafter name (Or.inl (hmiddle name (Or.inr hname)))
  · exact hafter name (Or.inr hname)

theorem Asks.subset {footprint : Footprint} {names names' : List QualifiedName} {part : Body π α}
    (h : Asks footprint names part) (hnames : names' ⊆ names) : Asks footprint names' part := by
  intro locals asked
  refine (h locals asked).imp fun after _ hafter name hname => hafter name ?_
  exact hname.imp_right (@hnames name)

theorem asks_ofExcept (footprint : Footprint) (result : Except Error α) :
    Asks footprint [] (ofExcept result : Body π α) := by
  intro locals asked
  cases result with
  | error cause => exact .failed cause
  | ok value =>
      refine .done fun name hname => ?_
      simpa using hname

theorem asks_value {footprint : Footprint} {name : QualifiedName} (index : Option Int64)
    (hname : name ∈ footprint.reads) :
    Asks footprint [name] (value (.request (.read name index)) : Body π Value) := by
  intro locals asked
  refine .read hname (fun _ => rfl) fun value => .done fun other hother => ?_
  simpa [or_comm] using hother

theorem asks_get (footprint : Footprint) :
    Asks footprint [] (get : Body π (Table String Value)) := by
  intro locals asked
  refine .done fun name hname => ?_
  simpa using hname

theorem asks_throw (footprint : Footprint) (cause : Error) :
    Asks footprint [] (throw cause : Body π α) :=
  fun _ _ => .failed cause

theorem asks_modify (footprint : Footprint) (f : Table String Value → Table String Value) :
    Asks footprint [] (modify f : Body π PUnit) := by
  intro locals asked
  refine .done fun name hname => ?_
  simpa using hname

/-- Reading a name reads the variable that it stands for. -/
theorem asks_read {footprint : Footprint} {resolution : Resolution} {written : String}
    (h : (Footprint.ofNames resolution [written] []).Within footprint) :
    Asks footprint ([written].filterMap resolution.global?)
      (read resolution written : Body π Value) := by
  have hreads := h.reads
  unfold Footprint.ofNames Resolution.global? at hreads
  unfold read Resolution.global?
  cases hresolve : resolution.resolve written with
  | global name =>
      simp only [List.filterMap_cons, hresolve, List.filterMap_nil] at hreads ⊢
      exact asks_value none (hreads List.mem_cons_self)
  | indexer =>
      simp only [List.filterMap_cons, hresolve, List.filterMap_nil]
      refine Asks.bind (asks_get footprint) fun locals => ?_
      split
      · exact Asks.pure footprint _
      · exact asks_throw footprint _
  | localName =>
      simp only [List.filterMap_cons, hresolve, List.filterMap_nil]
      refine Asks.bind (asks_get footprint) fun locals => ?_
      split
      · exact Asks.pure footprint _
      · exact asks_throw footprint _

theorem asks_store {footprint : Footprint} {name : QualifiedName} (value : Value)
    (hname : name ∈ footprint.stores) :
    Asks footprint [] (ask (.store name value) : Body π Unit) := by
  intro locals asked
  change Dialogue.Follows _ _ asked (.ask (.store name value) fun _ => .done (.ok ((), locals)))
  exact .store hname (asks_ofExcept footprint (.ok ()) locals asked)

theorem asks_assignment {footprint : Footprint} {name : QualifiedName} (value : Value)
    (hname : name ∈ footprint.assigns) :
    Asks footprint [] (do let _ ← ask (.assign name value) : Body π Unit) := by
  intro locals asked
  change Dialogue.Follows _ _ asked (.ask (.assign name value) fun _ => .done (.ok ((), locals)))
  exact .assign hname (asks_ofExcept footprint (.ok ()) locals asked)

/-- Assigning a name assigns or stores the variable that it stands for. -/
theorem asks_assign {footprint : Footprint} {resolution : Resolution} {written : String}
    (h : (Footprint.ofNames resolution [] [written]).Within footprint) (value : Value) :
    Asks footprint [] (assign resolution written value : Body π Unit) := by
  have hassigns := h.assigns
  have hstores := h.stores
  unfold Footprint.ofNames Resolution.global? at hassigns hstores
  unfold assign
  cases hresolve : resolution.resolve written with
  | global name =>
      simp only [List.filterMap_cons, hresolve, List.filterMap_nil] at hassigns hstores
      by_cases howner : resolution.owner = some name
      · simp only [howner, if_true]
        exact asks_store value (hstores (by simp [howner]))
      · simp only [howner, if_false]
        exact asks_assignment value (hassigns (by simp [howner]))
  | indexer => exact asks_modify footprint _
  | localName => exact asks_modify footprint _

end Body

/-! ### Runs of expressions -/

namespace Expr

variable {footprint : Footprint} {resolution : Resolution}

theorem globalName?_eq (resolution : Resolution) (target : Expr) (name : QualifiedName)
    (h : globalName? resolution target = some name) :
    target.names.filterMap resolution.global? = [name] := by
  cases target with
  | name written =>
      change resolution.global? written = some name at h
      simp [names, h]
  | _ => cases h

/-- The item of a target reads the target, whether it is asked for as an item or as a whole. -/
theorem asks_item {target : Expr}
    (h : (Footprint.ofNames resolution target.names target.targets).Within footprint)
    (htarget : Body.Asks footprint (target.names.filterMap resolution.global?)
      (evaluate resolution target : Body π Value)) (position : Int64) :
    Body.Asks footprint (target.names.filterMap resolution.global?)
      (match globalName? resolution target with
      | some qualified => Body.value (.request (.read qualified (some position)))
      | none => do
        let value ← evaluate resolution target
        Body.ofExcept (value.select position) : Body π Value) := by
  cases hglobal : globalName? resolution target with
  | some name =>
      have hnames := globalName?_eq resolution target name hglobal
      have hread := h.reads
      dsimp only [Footprint.ofNames] at hread
      rw [hnames] at hread ⊢
      exact Body.asks_value (some position) (hread List.mem_cons_self)
  | none =>
      refine (htarget.bind fun value => Body.asks_ofExcept footprint _).subset ?_
      rw [List.append_nil]
      exact List.Subset.refl _

mutual

/-- Evaluating an expression reads its variables and stays inside of its footprint. -/
theorem asks_evaluate :
    ∀ expr : Expr, (Footprint.ofExpr resolution expr).Within footprint →
      Body.Asks footprint (expr.names.filterMap resolution.global?)
        (evaluate resolution expr : Body π Value)
  | .constant value, _ => by
      rw [evaluate]
      exact Body.Asks.pure footprint value
  | .name written, h => by
      rw [evaluate]
      exact Body.asks_read h
  | .vector items, h => by
      rw [evaluate]
      refine ((asks_evaluateAll items h).bind fun values => Body.Asks.pure footprint _).subset ?_
      rw [List.append_nil]
      exact List.Subset.refl _
  | .item target index, h => by
      have htarget := Footprint.within_ofNames h (List.subset_append_left _ _)
        (List.subset_append_left _ _)
      have hindex := Footprint.within_ofNames h (List.subset_append_right _ _)
        (List.subset_append_right _ _)
      rw [evaluate, names, List.filterMap_append]
      refine ((asks_evaluate index hindex).bind fun position =>
        (Body.asks_ofExcept footprint position.asIndex).bind fun place =>
          asks_item htarget (asks_evaluate target htarget) place).subset ?_
      intro name hname
      rw [List.nil_append, List.mem_append]
      exact (List.mem_append.mp hname).symm
  | .unary op operand, h => by
      rw [evaluate]
      refine ((asks_evaluate operand h).bind fun value =>
        Body.asks_ofExcept footprint (op.apply value)).subset ?_
      rw [List.append_nil]
      exact List.Subset.refl _
  | .binary op left right, h => by
      have hleft := Footprint.within_ofNames h (List.subset_append_left _ _)
        (List.subset_append_left _ _)
      have hright := Footprint.within_ofNames h (List.subset_append_right _ _)
        (List.subset_append_right _ _)
      rw [evaluate, names, List.filterMap_append]
      refine ((asks_evaluate right hright).bind fun value =>
        (asks_evaluate left hleft).bind fun value' =>
          Body.asks_ofExcept footprint (op.apply value' value)).subset ?_
      intro name hname
      rw [List.append_nil, List.mem_append]
      exact (List.mem_append.mp hname).symm
  | .assign written value, h => by
      have hvalue := Footprint.within_ofNames h (List.Subset.refl _)
        (List.subset_append_left _ _)
      have htarget := Footprint.within_ofNames h (List.nil_subset _)
        (List.subset_append_right _ _)
      rw [evaluate, names]
      refine ((asks_evaluate value hvalue).bind fun result =>
        (Body.asks_assign htarget result).bind fun _ => Body.Asks.pure footprint result).subset ?_
      rw [List.append_nil, List.append_nil]
      exact List.Subset.refl _
  | .sequence statements, h => by
      rw [evaluate]
      exact asks_evaluateSequence statements (.array []) h

theorem asks_evaluateAll :
    ∀ exprs : List Expr,
      (Footprint.ofNames resolution (namesOfAll exprs) (targetsOfAll exprs)).Within footprint →
      Body.Asks footprint ((namesOfAll exprs).filterMap resolution.global?)
        (evaluateAll resolution exprs : Body π (List Value))
  | [], _ => by
      rw [evaluateAll]
      exact Body.Asks.pure footprint []
  | first :: rest, h => by
      have hfirst := Footprint.within_ofNames h (List.subset_append_left _ _)
        (List.subset_append_left _ _)
      have hrest := Footprint.within_ofNames h (List.subset_append_right _ _)
        (List.subset_append_right _ _)
      rw [evaluateAll, namesOfAll, List.filterMap_append]
      refine ((asks_evaluate first hfirst).bind fun value =>
        (asks_evaluateAll rest hrest).bind fun values =>
          Body.Asks.pure footprint (value :: values)).subset ?_
      rw [List.append_nil]
      exact List.Subset.refl _

theorem asks_evaluateSequence :
    ∀ (statements : List Expr) (last : Value),
      (Footprint.ofNames resolution (namesOfAll statements)
        (targetsOfAll statements)).Within footprint →
      Body.Asks footprint ((namesOfAll statements).filterMap resolution.global?)
        (evaluateSequence resolution last statements : Body π Value)
  | [], last, _ => by
      rw [evaluateSequence]
      exact Body.Asks.pure footprint last
  | statement :: statements, last, h => by
      have hfirst := Footprint.within_ofNames h (List.subset_append_left _ _)
        (List.subset_append_left _ _)
      have hrest := Footprint.within_ofNames h (List.subset_append_right _ _)
        (List.subset_append_right _ _)
      rw [evaluateSequence, namesOfAll, List.filterMap_append]
      exact (asks_evaluate statement hfirst).bind fun value =>
        asks_evaluateSequence statements value hrest

end

/-- A run of an expression follows the footprint of the expression; where it succeeds, it has read
all that there is to be read. -/
theorem follows_dialogue (resolution : Resolution) (body : Expr) (index : Option Int64) :
    Dialogue.Follows (Footprint.ofExpr resolution body)
      (fun asked _ => (Footprint.ofExpr resolution body).reads ⊆ asked) []
      (body.dialogue resolution index : Dialogue π (Except Error Value)) := by
  have hasks : Body.Asks (Footprint.ofExpr resolution body)
      (body.names.filterMap resolution.global?) (evaluate resolution body : Body π Value) :=
    asks_evaluate body (Footprint.Within.refl _)
  change Dialogue.Follows _ _ _ (Dialogue.bind
    (evaluate resolution body (initialLocals resolution index))
    (ExceptT.bindCont fun state : Value × Table String Value => pure state.1))
  refine Dialogue.Follows.bind (fun _ => rfl) ((hasks _ []).imp fun after result hafter => ?_)
  exact .done fun name hname => hafter name (Or.inr hname)

end Expr
end Memograph
