import LoopDeps.Proofs.Graph.Guising
set_option autoImplicit false

/- No edit looks at which loop a graph is of. Two loops with the same blocks have the same graph but for their
   numbers, and a graph or an error is always one of its own loop. -/
namespace LoopDeps

namespace Graph

-- Which loop a graph is of, and the share of that loop.
def origin (g : Graph) : Nat × Float := (g.loopId, g.coverage)

def relabel (g : Graph) (origin : Nat × Float) : Graph := { g with loopId := origin.1, coverage := origin.2 }

end Graph

namespace LoopError

-- The same failure of another loop.
def renumber (number : Nat) : LoopError → LoopError
  | .wideBranch _ label successors => .wideBranch number label successors
  | .missing _ what => .missing number what
  | .emptyLoop _ => .emptyLoop number
  | .system reason => .system reason

end LoopError

namespace Guise

-- A graph under another number, with another share.
def naming (origin : Nat × Float) : Guise := ⟨fun _ => origin.1, fun _ => origin.2, Edge.kind, fun _ => Iff.rfl⟩

theorem on_naming (origin : Nat × Float) (g : Graph) : (naming origin).on g = g.relabel origin :=
  congrArg (fun edges => { g.relabel origin with edges }) (Table.map_id g.edges)

end Guise

namespace Edit

def relabeled {α : Type} (origin : Nat × Float) : EStateM.Result LoopError Graph α → EStateM.Result LoopError Graph α
  | .ok value g => .ok value (g.relabel origin)
  | .error error g => .error (error.renumber origin.1) (g.relabel origin)

-- The first edit does to the graphs of one loop what the second does to those of any other.
def Copies {α : Type} (first second : Edit α) (origin : Nat × Float) : Prop :=
  ∀ g : Graph, first.run (g.relabel origin) = relabeled origin (second.run g)

theorem copies_of_carries {α : Type} (first second : Edit α) (origin : Nat × Float)
    (carries : ∀ g, (Guise.naming origin).Carries first second g) : Copies first second origin := by
  intro g
  have carried := carries g
  rw [Guise.Carries, Guise.on_naming] at carried
  rw [carried]
  cases second.run g with
  | ok value next => exact congrArg (EStateM.Result.ok value) (Guise.on_naming origin next)
  | error error next =>
      have renumbered : (Guise.naming origin).error error = error.renumber origin.1 := by cases error <;> rfl
      show EStateM.Result.error _ _ = EStateM.Result.error _ _
      rw [renumbered, Guise.on_naming]

end Edit

open Edit

-- The body of another loop with the same blocks.
def Body.renumber (body : Body) (number : Nat) : Body := { body with loopId := number }

namespace Graph

theorem passes_copy (origin : Nat × Float) (body : Body) (pdom : ControlLinks.PostDominates) :
    Copies (passes (body.renumber origin.1) pdom) (passes body pdom) origin := by
  apply copies_of_carries
  intro g
  refine passes_carry (Guise.naming origin) g (fun _ _ _ same => same) (body.renumber origin.1) body pdom pdom rfl
    ⟨rfl, rfl, fun _ => rfl⟩ ?_
  intro nodeOf branch block value terminator _ _ _ _
  exact ⟨id, ⟨fun _ _ _ => (Option.map_id_apply ..).symm, fun _ _ _ kind => kind⟩⟩

theorem of_body_renumber (body : Body) (number : Nat) :
    ofBody (body.renumber number) = match ofBody body with
      | .ok g => .ok (g.relabel (number, body.coverage))
      | .error error => .error (error.renumber number) := by
  have fold : ∀ instrs : List BodyInstr, instrs.foldl addInstr (new number) =
      (instrs.foldl addInstr (new body.loopId)).relabel (number, 0.0) := by
    intro instrs
    induction instrs using List.reverseRecOn with
    | nil => rfl
    | append_singleton before i ih =>
        rw [List.foldl_append, List.foldl_append, ih]
        rfl
  have instrs : (body.renumber number).instrs = body.instrs := rfl
  have loopId : (body.renumber number).loopId = number := rfl
  have size : (body.instrs.foldl addInstr (new number)).size = (body.instrs.foldl addInstr (new body.loopId)).size := by
    rw [fold]
    rfl
  simp only [ofBody, instrs, loopId, size]
  by_cases empty : (body.instrs.foldl addInstr (new body.loopId)).size = 0
  · rw [if_pos empty, if_pos empty]
    rfl
  · rw [if_neg empty, if_neg empty, fold]
    rfl

-- The graph of a body does not depend on the number of its loop.
theorem construct_renumber (body : Body) (number : Nat) (pdom : ControlLinks.PostDominates) :
    construct (body.renumber number) pdom = match construct body pdom with
      | .ok g => .ok (g.relabel (number, body.coverage))
      | .error error => .error (error.renumber number) := by
  have start := of_body_renumber body number
  simp only [construct, start]
  cases ofBody body with
  | error error => rfl
  | ok g =>
      have copied := passes_copy (number, body.coverage) body pdom g
      dsimp only at copied ⊢
      rw [copied]
      cases (passes body pdom).run g <;> rfl

-- A graph is the one of its body.
theorem construct_names (body : Body) (pdom : ControlLinks.PostDominates) (g : Graph)
    (built : construct body pdom = .ok g) : g.origin = (body.loopId, body.coverage) := by
  have copied : construct body pdom = match construct body pdom with
      | .ok g => .ok (g.relabel (body.loopId, body.coverage))
      | .error error => .error (error.renumber body.loopId) := construct_renumber body body.loopId pdom
  rw [built] at copied
  have same : g = g.relabel (body.loopId, body.coverage) := by injection copied
  rw [same]
  rfl

end Graph

end LoopDeps
