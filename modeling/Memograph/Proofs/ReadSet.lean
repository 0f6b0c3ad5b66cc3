import Memograph.Environment.Run
import Memograph.Proofs.Footprint

/-! The reads of a compiled definition against what its body asks for. A run is watched request by
request: each variable that it asks for is among the reads, whoever replies and whatever recomputes
do to the environment in between, and a run that succeeds has asked for all of them. -/

namespace Memograph

variable {π α : Type}

/-- The variable that a request asks for, if it asks for one. -/
def Request.variable? : Request π → Option QualifiedName
  | .read name _ => some name
  | _ => none

namespace Environment

/-- The requests of a dialogue, first to last, until it is done or is left without a reply. -/
def requests
    (respond : (request : Request π) → Environment π → Option (request.Reply × Environment π)) :
    Dialogue π α → Environment π → List (Request π)
  | .done _, _ => []
  | .ask request next, env =>
      request ::
        match respond request env with
        | none => []
        | some (reply, after) => requests respond (next reply) after

/-- How a run runs the recomputes that it sets off. -/
def nested (meaning : Meaning π) : Nat → Runner π (Except Error Value)
  | 0 => fun _ _ => none
  | depth + 1 => runWithin meaning depth

theorem runWithin_eq_converse (meaning : Meaning π) (depth : Nat) (d : Dialogue π α)
    (env : Environment π) :
    runWithin meaning depth d env = converse (respond (nested meaning depth) meaning) d env := by
  cases depth <;> rfl

/-- The variables that a run asks its environment for, first to last. What the recomputes ask for
that it sets off is not among them. -/
def asked (env : Environment π) (meaning : Meaning π) (d : Dialogue π α) : List QualifiedName :=
  (requests (respond (nested meaning env.depthLimit) meaning) d env).filterMap Request.variable?

/-- A dialogue that comes to an end after a request has had a reply to it. -/
theorem converse_ask_eq_some
    {respond : (request : Request π) → Environment π → Option (request.Reply × Environment π)}
    {request : Request π} {next : request.Reply → Dialogue π α} {env : Environment π}
    {outcome : α × Environment π} (h : converse respond (.ask request next) env = some outcome) :
    ∃ reply middle, respond request env = some (reply, middle) ∧
      converse respond (next reply) middle = some outcome := by
  unfold converse at h
  cases hreply : respond request env with
  | none => simp [hreply] at h
  | some reaction =>
      simp only [hreply] at h
      exact ⟨reaction.1, reaction.2, rfl, h⟩

theorem converse_read {run : Runner π (Except Error Value)} {meaning : Meaning π}
    {name : QualifiedName} {index : Option Int64} {env middle : Environment π}
    {answer : Except Error Value} (h : env.read run meaning name index = some (answer, middle))
    (next : Except Error Value → Dialogue π α) :
    converse (respond run meaning) (.ask (.read name index) next) env =
      converse (respond run meaning) (next answer) middle := by
  rw [converse, respond, h]

section Following

variable {footprint : Footprint} {post : List QualifiedName → α → Prop}
  (reply : (request : Request π) → Environment π → Option (request.Reply × Environment π))

/-- A dialogue that follows a footprint asks for nothing outside of it. -/
theorem requests_subset_reads {before : List QualifiedName} {d : Dialogue π (Except Error α)}
    (h : d.Follows footprint post before) (env : Environment π) :
    (requests reply d env).filterMap Request.variable? ⊆ footprint.reads := by
  induction h generalizing env with
  | failed cause => exact List.nil_subset _
  | done hpost => exact List.nil_subset _
  | @read before name index next hname hfailed hnext ih =>
      intro other hother
      simp only [requests, List.filterMap_cons, Request.variable?, List.mem_cons] at hother
      rcases hother with rfl | hother
      · exact hname
      · cases hreply : reply (.read name index) env with
        | none => simp [hreply] at hother
        | some result =>
            obtain ⟨answer, after⟩ := result
            simp only [hreply] at hother
            cases answer with
            | error cause =>
                rw [hfailed] at hother
                cases hother
            | ok value => exact ih value after hother
  | @assign before name value rest hname hrest ih =>
      intro other hother
      simp only [requests, List.filterMap_cons, Request.variable?] at hother
      cases hreply : reply (.assign name value) env with
      | none => simp [hreply] at hother
      | some result =>
          simp only [hreply] at hother
          exact ih result.2 hother
  | @store before name value rest hname hrest ih =>
      intro other hother
      simp only [requests, List.filterMap_cons, Request.variable?] at hother
      cases hreply : reply (.store name value) env with
      | none => simp [hreply] at hother
      | some result =>
          simp only [hreply] at hother
          exact ih result.2 hother

/-- Where a dialogue that follows a footprint succeeds, `post` holds of what it has asked for. -/
theorem post_requests {before : List QualifiedName} {d : Dialogue π (Except Error α)}
    (h : d.Follows footprint post before) {env after : Environment π} {result : α}
    (hrun : converse reply d env = some (.ok result, after)) :
    ∃ names, post names result ∧ ∀ name ∈ names,
      name ∈ before ∨ name ∈ (requests reply d env).filterMap Request.variable? := by
  induction h generalizing env with
  | failed cause => cases hrun
  | @done before value hpost =>
      cases hrun
      exact ⟨before, hpost, fun _ => Or.inl⟩
  | @read before name index next hname hfailed hnext ih =>
      obtain ⟨answer, middle, hreply, hrest⟩ := converse_ask_eq_some hrun
      cases answer with
      | error cause =>
          rw [hfailed] at hrest
          cases hrest
      | ok value =>
          obtain ⟨names, hpost, hnames⟩ := ih value hrest
          refine ⟨names, hpost, fun other hother => ?_⟩
          simp only [requests, hreply, List.filterMap_cons, Request.variable?, List.mem_cons]
          rcases hnames other hother with hbefore | hlater
          · rcases List.mem_cons.mp hbefore with heq | hbefore
            · exact Or.inr (Or.inl heq)
            · exact Or.inl hbefore
          · exact Or.inr (Or.inr hlater)
  | assign hname hrest ih =>
      obtain ⟨names, middle, hreply, hlast⟩ := converse_ask_eq_some hrun
      simpa only [requests, hreply, List.filterMap_cons, Request.variable?] using ih hlast
  | store hname hrest ih =>
      obtain ⟨done, middle, hreply, hlast⟩ := converse_ask_eq_some hrun
      simpa only [requests, hreply, List.filterMap_cons, Request.variable?] using ih hlast

end Following
end Environment

namespace Definition

theorem mem_compile_reads_iff {definition : Definition} {context : ContextPath}
    {compiled : Compiled} (husage : definition.usage = Usage.ofExpr definition.body)
    (h : definition.compile context = .ok compiled) (name : QualifiedName) :
    name ∈ compiled.reads ↔
      name ∈ (Footprint.ofExpr compiled.resolution compiled.body).reads := by
  rw [compile_reads_ofExpr h husage, List.mem_eraseDups, compile_body h]
  rfl

/-- The reads of a compiled definition are the variables of its body, each once and in the order of
the walk over it. A run of the body asks for no other variable, and asks for all of them where it
succeeds. -/
theorem compile_reads_exact {definition : Definition} {context : ContextPath} {compiled : Compiled}
    (husage : definition.usage = Usage.ofExpr definition.body)
    (hcompile : definition.compile context = .ok compiled) :
    compiled.reads.Nodup ∧
      compiled.reads =
        (definition.body.names.filterMap compiled.resolution.global?).eraseDups ∧
      ∀ (meaning : Meaning π) (env : Environment π) (index : Option Int64),
        env.asked meaning (compiled.body.dialogue compiled.resolution index) ⊆ compiled.reads ∧
        ∀ value after,
          env.run meaning (compiled.body.dialogue compiled.resolution index) =
            some (.ok value, after) →
          compiled.reads ⊆
            env.asked meaning (compiled.body.dialogue compiled.resolution index) := by
  have hreads := compile_reads_ofExpr hcompile husage
  have hmem := mem_compile_reads_iff husage hcompile
  refine ⟨hreads ▸ Lists.nodup_eraseDups _, hreads, fun meaning env index => ⟨?_, ?_⟩⟩
  · intro name hname
    have hfollows := Expr.follows_dialogue (π := π) compiled.resolution compiled.body index
    exact (hmem name).mpr (Environment.requests_subset_reads _ hfollows env hname)
  · intro value after hrun name hname
    have hfollows := Expr.follows_dialogue (π := π) compiled.resolution compiled.body index
    rw [Environment.run, Environment.runWithin_eq_converse] at hrun
    obtain ⟨names, hpost, hnames⟩ := Environment.post_requests _ hfollows hrun
    exact (hnames name (hpost ((hmem name).mp hname))).resolve_left List.not_mem_nil

/-- The items of a variable over a local, its index, and variables under three spellings. -/
def shadowing : Definition :=
  .ofBody "v" (some "i")
    (.sequence
      [.assign "t" (.binary .add (.name "y") (.name ".z")), .item (.name "w") (.name "i"),
        .binary .multiply (.name "t") (.binary .add (.name "s.y") (.name "t.q"))]) ""

theorem compile_reads_exact_shadowing :
    ∃ compiled, shadowing.compile ⟨["s"]⟩ = .ok compiled ∧
      compiled.reads = [⟨⟨["s"]⟩, "y"⟩, ⟨.root, "z"⟩, ⟨⟨["s"]⟩, "w"⟩, ⟨⟨["t"]⟩, "q"⟩] ∧
      ∀ (meaning : Meaning Procedure) (env : Environment Procedure) (index : Option Int64),
        env.asked meaning (compiled.body.dialogue compiled.resolution index) ⊆
          compiled.reads := by
  have hcomputed : (shadowing.compile ⟨["s"]⟩).toOption.map Compiled.reads =
      some [⟨⟨["s"]⟩, "y"⟩, ⟨.root, "z"⟩, ⟨⟨["s"]⟩, "w"⟩, ⟨⟨["t"]⟩, "q"⟩] := by
    decide +kernel
  cases hcompile : shadowing.compile ⟨["s"]⟩ with
  | error cause => simp [hcompile, Except.toOption] at hcomputed
  | ok compiled =>
      rw [hcompile] at hcomputed
      refine ⟨compiled, rfl, Option.some.inj hcomputed, fun meaning env index => ?_⟩
      exact ((compile_reads_exact rfl hcompile).2.2 meaning env index).1

end Definition
end Memograph
