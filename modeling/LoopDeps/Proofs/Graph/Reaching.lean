import LoopDeps.Proofs.Graph.Sparing
set_option autoImplicit false

/- No dependent of a branch is lost where edges are spared. Whatever feeds it came earlier, so that the one which all
   feeding starts from has an edge of its own. -/
namespace LoopDeps.ControlLinks

section

variable (body : Body) (pdom : PostDominates)

-- A data edge leads from one dependent of a branch to another one of it.
structure Hands (g : Graph) (y d : Dependent) : Prop where
  giver : Depends body pdom y
  taker : Depends body pdom d
  branch : y.branch = d.branch
  edge : ∃ id e, g.edges.get? id = some e ∧ e.kind = .data ∧ g.nodeOf? y.value = some e.source ∧
    g.nodeOf? d.value = some e.target

-- By induction on the place of the dependent, since an earlier one feeds it when it has no edge.
theorem handed_from_needed (g : Graph) (branch : BlockId) (listed : branch ∈ body.blocks) (d : Dependent)
    (front back : List Dependent) (split : dependents body pdom branch = front ++ d :: back) :
    ∃ first ∈ needed body pdom g, first.branch = branch ∧ Relation.ReflTransGen (Hands body pdom g) first d := by
  induction size : front.length using Nat.strong_induction_on generalizing d front back with
  | _ n ih =>
      have place : ∀ y ∈ dependents body pdom branch, Depends body pdom y ∧ y.branch = branch :=
        fun y member => (mem_dependents body pdom branch listed y).mp member
      obtain ⟨depends, here⟩ := place d (by simp [split])
      by_cases clear : ∀ y ∈ front, feeds g y.value d.value = false
      · exact ⟨d, (mem_needed body pdom g d).mpr ⟨depends, front, back, here ▸ split, clear⟩, here, .refl⟩
      · simp only [not_forall, Bool.not_eq_false] at clear
        obtain ⟨y, before, feeding⟩ := clear
        obtain ⟨start, rest, rfl⟩ := List.append_of_mem before
        obtain ⟨also, there⟩ := place y (by simp [split])
        have shorter : start.length < n := by
          rw [← size, List.length_append, List.length_cons]
          omega
        obtain ⟨first, member, sameBranch, way⟩ :=
          ih start.length shorter y start (rest ++ d :: back) (by simp [split]) rfl
        exact ⟨first, member, sameBranch,
          way.tail ⟨also, depends, there.trans here.symm, (feeds_iff g y.value d.value).mp feeding⟩⟩

theorem hands_kept (g h : Graph) (well : g.WellFormed) (controlled : Controlled g h) (y d : Dependent)
    (hands : Hands body pdom g y d) : Hands body pdom h y d := by
  obtain ⟨id, e, found, data, source, target⟩ := hands.edge
  have values := (controlled_frame g h controlled).2
  refine ⟨hands.giver, hands.taker, hands.branch, id, e, controlled_kept g h well controlled id e found, data, ?_, ?_⟩
  · rw [Graph.nodeOf?, values]
    exact source
  · rw [Graph.nodeOf?, values]
    exact target

-- When the pass ends well, a way leads from the end of the branch to each of its dependents: over an edge that was added
-- for the branch first, and then over data edges from dependent to dependent.
theorem dependents_stay_reached (linked next : Graph) (added : Bool) (made : DataLinks.supplied? body = some linked)
    (ran : (pass body pdom).run linked = .ok added next) (d : Dependent) (depends : Depends body pdom d) :
    ∃ position first e, (needed body pdom linked)[position]? = some first ∧ first.branch = d.branch ∧
      Drawn body pdom linked position first e ∧ linked.edges.get? e.id = none ∧ next.edges.get? e.id = some e ∧
      Relation.ReflTransGen (Hands body pdom next) first d := by
  have well := DataLinks.supplied_well_formed body linked made
  have spared := Edit.of_leads _ _ _ _ (pass_spares body pdom linked well) ran
  have member := (mem_dependents body pdom d.branch depends.branchListed d).mpr ⟨depends, rfl⟩
  obtain ⟨front, back, split⟩ := List.append_of_mem member
  obtain ⟨first, needs, sameBranch, way⟩ :=
    handed_from_needed body pdom linked d.branch depends.branchListed d front back split
  obtain ⟨position, here⟩ := List.mem_iff_getElem?.mp needs
  obtain ⟨e, _, drawn, new, there⟩ := spared_edge body pdom linked well added next spared position first here
  refine ⟨position, first, e, here, sameBranch, drawn, new, there, ?_⟩
  exact Relation.ReflTransGen.mono (fun y x => hands_kept body pdom linked next well spared.controlled y x) _ _ way

end

def crossingRuns : Bool :=
  (DataLinks.supplied? crossingBody).any fun g =>
    (needed crossingBody meeting g).map Dependent.value == [3, 5, 7] &&
      match (pass crossingBody meeting).run g with
      | .ok added _ => added
      | .error _ _ => false

-- The second arm takes a sum that has no edge of its own either.
theorem crossing_reached :
    ∃ linked next, DataLinks.supplied? crossingBody = some linked ∧
      (pass crossingBody meeting).run linked = .ok true next ∧ Depends crossingBody meeting ⟨0, 2, 6⟩ ∧
      ⟨0, 2, 6⟩ ∉ needed crossingBody meeting linked ∧
      ∃ first ∈ needed crossingBody meeting linked, ∃ position e, Drawn crossingBody meeting linked position first e ∧
        next.edges.get? e.id = some e ∧ Relation.ReflTransGen (Hands crossingBody meeting next) first ⟨0, 2, 6⟩ := by
  have depends : Depends crossingBody meeting ⟨0, 2, 6⟩ :=
    ⟨by decide, by decide, by decide, by decide, ⟨2, by decide, by decide⟩, by decide, by decide⟩
  have check : crossingRuns = true := by decide +kernel
  obtain ⟨linked, made, holds⟩ := (Option.any_eq_true _ _).mp check
  obtain ⟨values, runs⟩ := Bool.and_eq_true_iff.mp holds
  split at runs
  · rename_i added next ran
    subst runs
    have unneeded : ⟨0, 2, 6⟩ ∉ needed crossingBody meeting linked := by
      intro member
      have listed := List.mem_map_of_mem (f := Dependent.value) member
      rw [beq_iff_eq.mp values] at listed
      exact absurd listed (by decide)
    obtain ⟨position, first, e, here, _, drawn, _, found, way⟩ :=
      dependents_stay_reached crossingBody meeting linked next true made ran ⟨0, 2, 6⟩ depends
    exact ⟨linked, next, made, ran, depends, unneeded, first, List.mem_of_getElem? here, position, e, drawn, found, way⟩
  · cases runs

end LoopDeps.ControlLinks
