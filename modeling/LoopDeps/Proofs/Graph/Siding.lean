import LoopDeps.Proofs.Graph.Guarding
import LoopDeps.Proofs.Graph.Sparing
import LoopDeps.Proofs.Text.Faithful
set_option autoImplicit false

/- On which arm of its branch the feeder of a spared dependent is. Both arms share one list of dependents, so that it
   can be the other one: a phi takes values of both, and a value of the round before comes from ahead of the branch.
   What dominates the dependent and not the branch is on its own arm. -/
namespace LoopDeps.ControlLinks

open LoopDeps.Flow

section

variable (body : Body) (pdom : PostDominates)

-- No edge was added for the dependent at its branch.
structure Skips (g next : Graph) (d : Dependent) : Prop where
  depends : Depends body pdom d
  unlinked : ∀ id e, next.edges.get? id = some e → g.edges.get? id = none → ∀ last,
    (instrsOf body d.branch).getLast? = some last → g.nodeOf? last = some e.source → g.nodeOf? d.value ≠ some e.target

theorem skipped_fed (g next : Graph) (links : Links body pdom g next) (d : Dependent)
    (skips : Skips body pdom g next d) : ∃ y, Earlier body pdom y d ∧ feeds g y.value d.value = true := by
  have well := DataLinks.supplied_well_formed body g links.supplied
  obtain ⟨added, ran⟩ := links.ran
  have spared := Edit.of_leads _ _ _ _ (pass_spares body pdom g well) ran
  have unneeded : d ∉ needed body pdom g := by
    intro needs
    obtain ⟨position, here⟩ := List.mem_iff_getElem?.mp needs
    obtain ⟨e, _, drawn, new, found⟩ := spared_edge body pdom g well added next spared position d here
    obtain ⟨last, isLast, source⟩ := drawn.source
    exact skips.unlinked e.id e found new last isLast source drawn.target
  have member := (mem_dependents body pdom d.branch skips.depends.branchListed d).mpr ⟨skips.depends, rfl⟩
  obtain ⟨front, back, split⟩ := List.append_of_mem member
  by_contra nothing
  refine unneeded ((mem_needed body pdom g d).mpr ⟨skips.depends, front, back, split, fun y before => ?_⟩)
  exact Bool.eq_false_iff.mpr fun feeding => nothing ⟨y, ⟨front, back, split, before⟩, feeding⟩

theorem earlier_depends (y d : Dependent) (listed : d.branch ∈ body.blocks) (earlier : Earlier body pdom y d) :
    Depends body pdom y ∧ y.branch = d.branch := by
  obtain ⟨front, back, split, before⟩ := earlier
  exact (mem_dependents body pdom d.branch listed y).mp (split ▸ List.mem_append_left _ before)

end

section

variable (f : Func)

-- A block on every way from an arm to a block that is certain there is certain as well.
theorem post_dominates_through (b m start : BlockId) (certain : Flow.PostDominates f m start)
    (through : ∀ way, Path f.succ start m way → b ∈ way) : Flow.PostDominates f b start := by
  intro exit way inside ends path
  obtain ⟨before, first, _, early⟩ := path_until f.succ start exit m way path (certain exit way inside ends path)
  rcases List.mem_append.mp (through _ first) with passed | last
  · exact early passed
  · exact List.mem_singleton.mp last ▸ certain exit way inside ends path

-- The way from the entry to the branch avoids the block, so that the way on from there does not.
theorem passed_after_branch (b m branch start : BlockId) (edge : start ∈ f.succ branch)
    (ahead : Dominates f b m) (behind : ¬Dominates f b branch) (way : List BlockId)
    (path : Path f.succ start m way) : b ∈ way := by
  obtain ⟨entry, before, starts, first, missing⟩ := not_dominates f b branch behind
  have whole := path_join f.succ entry branch start m before way first edge path
  exact (List.mem_append.mp (ahead entry _ starts whole)).resolve_left missing

variable (linked : f.Linked)

include linked

theorem same_arm (branch m b start : BlockId) (arm : Bool) (branchInside : branch < f.blocks.length)
    (inside : b < f.blocks.length) (twoWay : (f.succ branch).length = 2) (other : b ≠ branch)
    (isStart : armStart (f.succ branch) arm = some start) (certain : Flow.PostDominates f m start)
    (avoidable : ¬Flow.PostDominates f b branch) (through : ∀ way, Path f.succ start m way → b ∈ way) :
    dependsOn (postDominance f).dominates (f.succ branch) branch b = some arm := by
  have also := post_dominates_through f b m start certain through
  obtain ⟨first, second, two⟩ := List.length_eq_two.mp twoWay
  obtain ⟨onFirst, onSecond⟩ := depends_on_iff f linked branch b first second branchInside inside two other
  rw [two] at isStart
  cases arm with
  | true =>
      cases isStart
      exact onFirst.mpr ⟨also, avoidable⟩
  | false =>
      cases isStart
      exact onSecond.mpr ⟨also, avoidable⟩

-- Where an edge is spared, an earlier dependent feeds the instruction. It is on the same arm when every way from
-- there to the instruction passes its block, and so when its block dominates that of the instruction and not the branch.
theorem spared_on_same_arm (l : Loop) (listed : l ∈ (LoopForest.ofFunc f).loops) (loopId : Nat) (g next : Graph) :
    let body : Body := ⟨loopId, f, l.blocks⟩
    let pdom := (postDominance f).dominates
    Links body pdom g next → ∀ d, Skips body pdom g next d →
      (∃ y, Earlier body pdom y d ∧ feeds g y.value d.value = true) ∧
      ∃ arm start, dependsOn pdom (f.succ d.branch) d.branch d.block = some arm ∧
        armStart (f.succ d.branch) arm = some start ∧
        ∀ y, Earlier body pdom y d → feeds g y.value d.value = true →
          ((∀ way, Path f.succ start d.block way → y.block ∈ way) →
            dependsOn pdom (f.succ d.branch) d.branch y.block = some arm) ∧
          (Dominates f y.block d.block → ¬Dominates f y.block d.branch →
            dependsOn pdom (f.succ d.branch) d.branch y.block = some arm) := by
  intro body pdom links d skips
  have bound := loop_block_inside f linked l listed
  have depends := skips.depends
  have branchInside : d.branch < f.blocks.length := bound d.branch depends.branchListed
  have decided : decides f pdom d.branch d.block = true := by
    simpa [decides] using ⟨⟨⟨depends.twoWay, depends.other⟩, depends.certain⟩, depends.avoidable⟩
  have arm := depends_on_decided body pdom d.branch d.block d.value depends.twoWay
  rw [if_pos decided] at arm
  obtain ⟨start, edge, isStart, certain, _⟩ := depends_certain f linked d.branch d.block _ branchInside
    (bound d.block depends.listed) depends.twoWay arm
  have through : ∀ y, Earlier body pdom y d → (∀ way, Path f.succ start d.block way → y.block ∈ way) →
      dependsOn pdom (f.succ d.branch) d.branch y.block = some (onFirstArm body pdom ⟨d.branch, d.block, d.value⟩) := by
    intro y earlier passes
    obtain ⟨also, sameBranch⟩ := earlier_depends body pdom y d depends.branchListed earlier
    have inside : y.block < f.blocks.length := bound y.block also.listed
    have avoidable : ¬Flow.PostDominates f y.block d.branch := by
      rw [← post_dominance_iff f linked y.block d.branch inside branchInside, ← sameBranch]
      exact Bool.eq_false_iff.mp also.avoidable
    exact same_arm f linked d.branch d.block y.block start _ branchInside inside depends.twoWay
      (sameBranch ▸ also.other) isStart certain avoidable passes
  refine ⟨skipped_fed body pdom g next links d skips, _, start, arm, isStart, fun y earlier _ => ?_⟩
  refine ⟨through y earlier, fun ahead behind => through y earlier ?_⟩
  exact passed_after_branch f y.block d.block d.branch start edge ahead behind

end

-- A dependent with those of its branch before and behind it, and the only one that feeds it.
structure Place where
  front : List Dependent
  giver : Dependent
  taker : Dependent
  back : List Dependent

-- Whether the pass spares the edge of the dependent at the place.
def skipsAt (body : Body) (pdom : PostDominates) (place : Place) : Bool :=
  body.blocks.contains place.taker.branch && match DataLinks.supplied? body with
    | none => false
    | some g =>
        match (pass body pdom).run g with
        | .error _ _ => false
        | .ok _ next =>
            dependents body pdom place.taker.branch == place.front ++ place.taker :: place.back &&
              place.front.contains place.giver && feeds g place.giver.value place.taker.value &&
              !(next.edges.values.any fun e => g.nodeOf? (lastOf body place.taker.branch) == some e.source &&
                g.nodeOf? place.taker.value == some e.target) &&
              (dependents body pdom place.taker.branch).all fun y =>
                y == place.giver || !feeds g y.value place.taker.value

-- The pass spares the edge, and only `y` feeds the dependent.
structure FedOnlyBy (body : Body) (pdom : PostDominates) (y d : Dependent) (g next : Graph) : Prop where
  links : Links body pdom g next
  skips : Skips body pdom g next d
  earlier : Earlier body pdom y d
  feeding : feeds g y.value d.value = true
  only : ∀ other, Earlier body pdom other d → feeds g other.value d.value = true → other = y

theorem skips_at (body : Body) (pdom : PostDominates) (place : Place) (skips : skipsAt body pdom place = true) :
    ∃ g next, FedOnlyBy body pdom place.giver place.taker g next := by
  obtain ⟨listed, skips⟩ := Bool.and_eq_true_iff.mp skips
  split at skips
  · cases skips
  · rename_i g supplied
    split at skips
    · cases skips
    · rename_i added next ran
      simp only [Bool.and_eq_true, beq_iff_eq, List.contains_iff_mem, Bool.not_eq_true', List.any_eq_false,
        List.all_eq_true, Bool.or_eq_true] at listed skips
      obtain ⟨⟨⟨⟨split, before⟩, feeding⟩, apart⟩, only⟩ := skips
      have member : place.taker ∈ dependents body pdom place.taker.branch := by rw [split]; simp
      refine ⟨g, next, ⟨supplied, added, ran⟩,
        ⟨((mem_dependents body pdom place.taker.branch listed place.taker).mp member).1, ?_⟩,
        ⟨place.front, place.back, split, before⟩, feeding, ?_⟩
      · intro id e found _ last isLast source target
        have unlinked := apart e (Table.mem_values.mpr ⟨id, found⟩)
        rw [lastOf, isLast, Option.getD_some] at unlinked
        exact unlinked ⟨source, target⟩
      · rintro other ⟨ahead, behind, split, before⟩ feeding
        refine (only other (split ▸ List.mem_append_left _ before)).resolve_right fun silent => ?_
        rw [feeding] at silent
        cases silent

-- The phi of the block behind takes a value of one arm only.
def merging : String := "func @merge(%n: i32) \x7b
entry:
  br label %head
head:
  %c = icmp i1 %n, 0
  br %c, label %left, label %join
left:
  %a = add i32 %n, 1
  br label %more
more:
  %b = add i32 %a, 1
  br %b, label %join, label %exit
join:
  %x = phi i32 [%b, %more], [0, %head]
  br %x, label %head, label %exit
exit:
  ret void
\x7d
"

def mergingPhi : Place := ⟨[⟨1, 2, 4⟩, ⟨1, 2, 5⟩, ⟨1, 3, 6⟩, ⟨1, 3, 7⟩], ⟨1, 3, 6⟩, ⟨1, 4, 8⟩, [⟨1, 4, 9⟩]⟩

def mergingSum : Place := ⟨[⟨1, 2, 4⟩, ⟨1, 2, 5⟩], ⟨1, 2, 4⟩, ⟨1, 3, 6⟩, [⟨1, 3, 7⟩, ⟨1, 4, 8⟩, ⟨1, 4, 9⟩]⟩

def placesCheck (text : String) (places : List Place) (more : Func → Bool) : Bool :=
  match parse text with
  | .ok [f] => more f && (LoopForest.ofFunc f).loops.any fun l =>
      places.all (skipsAt ⟨0, f, l.blocks⟩ (postDominance f).dominates)
  | _ => false

theorem places_check (text : String) (places : List Place) (more : Func → Bool)
    (check : placesCheck text places more = true) :
    ∃ f, parse text = .ok [f] ∧ f.Linked ∧ more f = true ∧ ∃ l ∈ (LoopForest.ofFunc f).loops, ∀ place ∈ places,
      ∃ g next, FedOnlyBy ⟨0, f, l.blocks⟩ (postDominance f).dominates place.giver place.taker g next := by
  unfold placesCheck at check
  split at check
  · rename_i f parsed
    obtain ⟨holds, present⟩ := Bool.and_eq_true_iff.mp check
    obtain ⟨l, listed, all⟩ := List.any_eq_true.mp present
    exact ⟨f, parsed, parsed_linked text [f] parsed f List.mem_cons_self, holds, l, listed,
      fun place member => skips_at _ _ place (List.all_eq_true.mp all place member)⟩
  · cases check

def dominanceIs (answer : Bool) (a b : BlockId) (f : Func) : Bool :=
  decide (a < f.blocks.length) && decide (b < f.blocks.length) && (dominance f).dominates a b == answer

theorem dominance_is (f : Func) (linked : f.Linked) (answer : Bool) (a b : BlockId)
    (holds : dominanceIs answer a b f = true) : Dominates f a b ↔ answer = true := by
  simp only [dominanceIs, Bool.and_eq_true, decide_eq_true_eq, beq_iff_eq] at holds
  obtain ⟨⟨here, there⟩, rfl⟩ := holds
  exact (dominance_iff f linked a b here there).symm

-- The giver is on the other arm.
def opposite (place : Place) (f : Func) : Bool :=
  let arm := dependsOn (postDominance f).dominates (f.succ place.taker.branch) place.taker.branch
  arm place.giver.block != arm place.taker.block

def mergingShape (f : Func) : Bool :=
  dominanceIs true 2 3 f && dominanceIs false 2 1 f && dominanceIs false 3 1 f && opposite mergingPhi f

set_option maxRecDepth 100000 in
theorem merging_check : placesCheck merging [mergingPhi, mergingSum] mergingShape = true := by decide +kernel

-- The first arm goes on with its own sum, which is spared and stays on that arm.
theorem own_sum_on_same_arm :
    ∃ f, f.Linked ∧ ∃ l ∈ (LoopForest.ofFunc f).loops, ∃ g next,
      let body : Body := ⟨0, f, l.blocks⟩
      let pdom := (postDominance f).dominates
      Links body pdom g next ∧ Skips body pdom g next ⟨1, 3, 6⟩ ∧ Earlier body pdom ⟨1, 2, 4⟩ ⟨1, 3, 6⟩ ∧
        feeds g 4 6 = true ∧ Dominates f 2 3 ∧ ¬Dominates f 2 1 ∧
        ∃ arm, dependsOn pdom (f.succ 1) 1 3 = some arm ∧ dependsOn pdom (f.succ 1) 1 2 = some arm := by
  obtain ⟨f, _, linked, shape, l, listed, places⟩ := places_check merging _ _ merging_check
  obtain ⟨g, next, links, skips, earlier, feeding, _⟩ := places mergingSum (by simp)
  simp only [mergingShape, Bool.and_eq_true] at shape
  have ahead : Dominates f 2 3 := (dominance_is f linked true 2 3 shape.1.1.1).mpr rfl
  have behind : ¬Dominates f 2 1 := fun ahead => nomatch (dominance_is f linked false 2 1 shape.1.1.2).mp ahead
  obtain ⟨_, arm, _, depends, _, kept⟩ := spared_on_same_arm f linked l listed 0 g next links ⟨1, 3, 6⟩ skips
  exact ⟨f, linked, l, listed, g, next, links, skips, earlier, feeding, ahead, behind, arm, depends,
    (kept ⟨1, 2, 4⟩ earlier feeding).2 ahead behind⟩

-- The arm of a spared dependent is the arm of one that feeds it, as far as some feeder of it is admitted.
def ArmKept (admits : Func → Dependent → Dependent → Prop) : Prop :=
  ∀ text functions, parse text = .ok functions → ∀ f ∈ functions, ∀ l ∈ (LoopForest.ofFunc f).loops,
    ∀ loopId g next, let body : Body := ⟨loopId, f, l.blocks⟩
      let pdom := (postDominance f).dominates
      Links body pdom g next → ∀ d, Skips body pdom g next d → ∀ y, Earlier body pdom y d →
        feeds g y.value d.value = true → admits f y d → ∃ other, Earlier body pdom other d ∧
          feeds g other.value d.value = true ∧
          dependsOn pdom (f.succ d.branch) d.branch other.block = dependsOn pdom (f.succ d.branch) d.branch d.block

theorem not_kept_of_check (admits : Func → Dependent → Dependent → Prop) (text : String) (places : List Place)
    (more : Func → Bool) (check : placesCheck text places more = true) (place : Place) (member : place ∈ places)
    (apart : ∀ f, f.Linked → more f = true → opposite place f = true ∧ admits f place.giver place.taker) :
    ¬ArmKept admits := by
  intro kept
  obtain ⟨f, parsed, linked, holds, l, listed, all⟩ := places_check text places more check
  obtain ⟨g, next, fed⟩ := all place member
  obtain ⟨otherArm, admitted⟩ := apart f linked holds
  obtain ⟨other, before, feedsToo, same⟩ := kept text [f] parsed f List.mem_cons_self l listed 0 g next fed.links
    place.taker fed.skips place.giver fed.earlier fed.feeding admitted
  cases fed.only other before feedsToo
  exact bne_iff_ne.mp otherArm same

-- The second arm takes a value that the first one makes anew on the way round.
def carrying : String := "func @carry(%n: i32) \x7b
entry:
  br label %head
head:
  %y = add i32 %n, 1
  br %y, label %test, label %exit
test:
  %c = icmp i1 %n, 0
  br %c, label %head, label %side
side:
  %x = add i32 %y, 1
  br %x, label %head, label %exit
exit:
  ret void
\x7d
"

def carryingSum : Place := ⟨[⟨2, 1, 2⟩, ⟨2, 1, 3⟩], ⟨2, 1, 2⟩, ⟨2, 3, 6⟩, [⟨2, 3, 7⟩]⟩

def carryingShape (f : Func) : Bool := dominanceIs true 1 3 f && opposite carryingSum f

set_option maxRecDepth 100000 in
theorem carrying_check : placesCheck carrying [carryingSum] carryingShape = true := by decide +kernel

-- A spared edge can leave its target with feeders on the other arm only, and either condition alone does not prevent it.
theorem arm_not_kept :
    ¬ArmKept (fun _ _ _ => True) ∧ ¬ArmKept (fun f y d => Dominates f y.block d.block) ∧
      ¬ArmKept (fun f y d => ¬Dominates f y.block d.branch) := by
  refine ⟨?_, ?_, ?_⟩
  · refine not_kept_of_check _ merging _ _ merging_check mergingPhi (by simp) fun f _ shape => ?_
    exact ⟨(Bool.and_eq_true_iff.mp shape).2, trivial⟩
  · refine not_kept_of_check _ carrying _ _ carrying_check carryingSum (by simp) fun f linked shape => ?_
    obtain ⟨ahead, otherArm⟩ := Bool.and_eq_true_iff.mp shape
    exact ⟨otherArm, (dominance_is f linked true 1 3 ahead).mpr rfl⟩
  · refine not_kept_of_check _ merging _ _ merging_check mergingPhi (by simp) fun f linked shape => ?_
    simp only [mergingShape, Bool.and_eq_true] at shape
    exact ⟨shape.2, fun ahead => nomatch (dominance_is f linked false 3 1 shape.1.2).mp ahead⟩

end LoopDeps.ControlLinks
