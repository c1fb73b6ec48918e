import LoopDeps.Proofs.Text.Faulting
set_option autoImplicit false

/- Which texts that match the grammar are modules. The functions are taken in text order, and the first one that is not
   sound gives the error. -/
namespace LoopDeps

namespace Text

theorem resolve_all_error (before after : List WrittenFunction) (bad : WrittenFunction) (error : ParseError)
    (sound : ∀ one ∈ before, one.Sound) (failed : bad.resolve = .error error) :
    (resolveAll (before ++ bad :: after)).error = some error := by
  induction before with
  | nil => rw [List.nil_append, resolveAll, failed]
  | cons one rest ih =>
      obtain ⟨here, others⟩ := List.forall_mem_cons.mp sound
      obtain ⟨func, resolved⟩ := one.sound_iff.mp here
      rw [List.cons_append, resolveAll, resolved]
      exact ih others

theorem resolve_all_blames (written : List WrittenFunction) (error : ParseError)
    (failed : (resolveAll written).error = some error) : ∃ one ∈ written, one.Blames error := by
  induction written with
  | nil => cases failed
  | cons one rest ih =>
      rw [resolveAll] at failed
      cases resolved : one.resolve with
      | error other =>
          rw [resolved] at failed
          cases failed
          exact ⟨one, List.mem_cons_self, one.resolve_blames error resolved⟩
      | ok func =>
          rw [resolved] at failed
          obtain ⟨later, member, blames⟩ := ih failed
          exact ⟨later, List.mem_cons_of_mem _ member, blames⟩

theorem resolve_all_sound (written : List WrittenFunction) :
    (resolveAll written).error = none ↔ ∀ one ∈ written, one.Sound := by
  induction written with
  | nil => simp [resolveAll]
  | cons one rest ih =>
      rw [resolveAll, List.forall_mem_cons, one.sound_iff]
      cases resolved : one.resolve with
      | error error => simp
      | ok func => simpa using ih

end Text

theorem parse_read (text : String) (written : List Text.WrittenFunction) (read : Text.read text.toList = .ok written) :
    parse text = match (Text.resolveAll written).error with
      | none => .ok (Text.resolveAll written).functions
      | some error => .error error := by
  unfold parse Text.resolveText
  simp only [read]
  generalize Text.resolveAll written = all
  obtain ⟨functions, error⟩ := all
  cases error <;> rfl

-- Only a text that is no sequence of functions is a mismatch.
theorem parse_mismatch_iff (text : String) :
    (∃ found, parse text = .error (.mismatch found)) ↔ ∀ written, Text.read text.toList ≠ .ok written := by
  cases read : Text.read text.toList with
  | error error =>
      have found : error = .mismatch (.ofText text.toList) := by
        unfold Text.read at read
        split at read <;> cases read
        rfl
      refine iff_of_true ⟨.ofText text.toList, ?_⟩ nofun
      unfold parse Text.resolveText
      simp only [read, found]
  | ok written =>
      refine iff_of_false ?_ fun absent => absent written rfl
      rintro ⟨found, failed⟩
      rw [parse_read text written read] at failed
      cases told : (Text.resolveAll written).error with
      | none =>
          rw [told] at failed
          cases failed
      | some error =>
          rw [told] at failed
          cases failed
          obtain ⟨one, _, blames⟩ := Text.resolve_all_blames written _ told
          exact one.blames_no_mismatch found blames

-- A text is accepted when all its functions are sound. Otherwise the first that is not is to blame, and if it is well
-- declared, then for its first reference that leads nowhere.
theorem accepted_iff_sound (text : String) (written : List Text.WrittenFunction) (read : Text.read text.toList = .ok written) :
    ((∃ fs, parse text = .ok fs) ↔ ∀ one ∈ written, one.Sound) ∧
      ∀ before bad after, written = before ++ bad :: after → (∀ one ∈ before, one.Sound) → ¬ bad.Sound →
        ∃ error, parse text = .error error ∧ bad.Blames error ∧
          (bad.WellDeclared → ∃ earlier reference later, bad.references = earlier ++ reference :: later ∧
            (∀ other ∈ earlier, bad.Leads other) ∧ ¬ bad.Leads reference ∧ error = reference.error) := by
  have whole := parse_read text written read
  refine ⟨?_, ?_⟩
  · rw [← Text.resolve_all_sound, whole]
    cases (Text.resolveAll written).error <;> simp
  · rintro before bad after rfl sound unsound
    cases failed : bad.resolve with
    | ok func => exact absurd (bad.sound_iff.mpr ⟨func, failed⟩) unsound
    | error error =>
        rw [Text.resolve_all_error before after bad error sound failed] at whole
        exact ⟨error, whole, bad.resolve_blames error failed, fun good => (bad.resolve_error_iff good error).mp failed⟩

-- A function whose operands are used ahead, and one with a lost name and a lost label.
def lostText : String :=
"func @f(%n: <2 x i32>) \x7b
a:
  %i = add %j, %n
  %j = neg %n
\x7d
func @g() \x7b
a:
  br %x, label %b
\x7d
"

def lostFront : Text.WrittenFunction where
  name := "f"
  params := [⟨"n", .vector "2" (.int "32")⟩]
  blocks :=
    [⟨"a", none, [⟨some "i", "add", none, [.value (.name "j"), .value (.name "n")]⟩,
      ⟨some "j", "neg", none, [.value (.name "n")]⟩]⟩]

def lostBranch : Text.WrittenFunction where
  name := "g"
  params := []
  blocks := [⟨"a", none, [⟨none, "br", none, [.value (.name "x"), .label "b"]⟩]⟩]

theorem lost_branch_to_blame :
    Text.read lostText.toList = .ok [lostFront, lostBranch] ∧ (∀ one ∈ [lostFront], one.Sound) ∧
      ¬ lostBranch.Sound ∧ lostBranch.WellDeclared ∧ parse lostText = .error (.undefinedValue "x") ∧
      lostBranch.Blames (.undefinedValue "x") ∧
      ∃ earlier reference later, lostBranch.references = earlier ++ reference :: later ∧
        (∀ other ∈ earlier, lostBranch.Leads other) ∧ ¬ lostBranch.Leads reference ∧
        reference.error = .undefinedValue "x" := by
  have read : Text.read lostText.toList = .ok [lostFront, lostBranch] := by decide +kernel
  have sound : ∀ one ∈ [lostFront], one.Sound := by
    rw [List.forall_mem_singleton, Text.WrittenFunction.sound_iff]
    have resolves : lostFront.resolve.isOk = true := by decide +kernel
    cases resolved : lostFront.resolve with
    | ok func => exact ⟨func, rfl⟩
    | error error =>
        rw [resolved] at resolves
        cases resolves
  have unsound : ¬ lostBranch.Sound := fun sound => by
    have leads := sound.leads (.value "x") List.mem_cons_self
    exact List.not_mem_nil leads
  have declared : lostBranch.WellDeclared :=
    { fits := fun _ member => (List.not_mem_nil member).elim
      names := by decide
      labels := by decide }
  have lost : parse lostText = .error (.undefinedValue "x") := by decide +kernel
  obtain ⟨error, failed, blames, first⟩ :=
    (accepted_iff_sound lostText _ read).2 [lostFront] lostBranch [] rfl sound unsound
  cases lost.symm.trans failed
  obtain ⟨earlier, reference, later, split, leads, leadsNot, same⟩ := first declared
  exact ⟨read, sound, unsound, declared, lost, blames, earlier, reference, later, split, leads, leadsNot, same.symm⟩

end LoopDeps
