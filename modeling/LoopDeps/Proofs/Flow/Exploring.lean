import Mathlib.Data.List.Perm.Subperm
import Mathlib.Data.List.TakeWhile
import LoopDeps.Flow.Reach
import LoopDeps.Proofs.Flow.Paths
set_option autoImplicit false

/- An exploration ends with the blocks it was told to leave out and exactly those that its work list leads to
   without passing them. The bound on its steps is never short. -/
namespace LoopDeps.Flow

section

variable (next : BlockId → List BlockId)

theorem dropped_while (seen work rest : List BlockId) (b : BlockId)
    (left : work.dropWhile (fun c => seen.contains c) = b :: rest) :
    b ∉ seen ∧ ∃ known, work = known ++ b :: rest ∧ known ⊆ seen := by
  induction work with
  | nil => simp at left
  | cons c work ih =>
      by_cases known : c ∈ seen
      · have left : work.dropWhile (fun c => seen.contains c) = b :: rest := by simpa [known] using left
        obtain ⟨new, before, split, inside⟩ := ih left
        exact ⟨new, c :: before, by rw [split]; rfl, List.cons_subset.mpr ⟨known, inside⟩⟩
      · have parts : c = b ∧ work = rest := by simpa [known] using left
        cases parts.1
        exact ⟨known, [], by rw [parts.2]; rfl, List.nil_subset seen⟩

theorem explore_sound (steps : Nat) (work seen : List BlockId) (b : BlockId)
    (found : b ∈ explore next steps work seen) :
    b ∈ seen ∨ ∃ root ∈ work, ∃ way, Path next root b way ∧ ∀ c ∈ way, c ∉ seen := by
  induction steps generalizing work seen with
  | zero => exact Or.inl found
  | succ steps ih =>
      unfold explore at found
      split at found
      · exact Or.inl found
      · rename_i first rest left
        obtain ⟨new, known, split, _⟩ := dropped_while seen work rest first left
        have listed : first ∈ work := by simp [split]
        have here : ∀ c ∈ [first], c ∉ seen := by simpa using new
        rcases ih (next first ++ rest) (first :: seen) found with old | ⟨root, member, way, path, clear⟩
        · by_cases same : b = first
          · cases same
            exact Or.inr ⟨b, listed, [b], .here b, here⟩
          · exact Or.inl (List.mem_of_ne_of_mem same old)
        · have clear : ∀ c ∈ way, c ∉ seen := fun c passed old => clear c passed (List.mem_cons_of_mem first old)
          rcases List.mem_append.mp member with edge | later
          · refine Or.inr ⟨first, listed, first :: way, .step first root b way edge path, ?_⟩
            exact List.forall_mem_cons.mpr ⟨new, clear⟩
          · exact Or.inr ⟨root, by simp [split, later], way, path, clear⟩

-- Nothing that the work list leads to is missing.
structure Exhausted (work seen found : List BlockId) : Prop where
  kept : seen ⊆ found
  entered : work ⊆ found
  closed : ∀ b ∈ found, b ∉ seen → next b ⊆ found

theorem all_seen (size : Nat) (seen : List BlockId) (inside : ∀ b ∈ seen, b < size) (once : seen.Nodup)
    (full : size ≤ seen.length) (b : BlockId) (bound : b < size) : b ∈ seen := by
  have bounded : seen ⊆ List.range size := fun c member => List.mem_range.mpr (inside c member)
  have same := (once.subperm bounded).perm_of_length_le (by rw [List.length_range]; exact full)
  exact same.mem_iff.mpr (List.mem_range.mpr bound)

theorem explore_exhausted (size : Nat) (edges : ∀ a, ∀ b ∈ next a, b < size) (steps : Nat)
    (work seen : List BlockId) (roots : ∀ b ∈ work, b < size) (inside : ∀ b ∈ seen, b < size)
    (once : seen.Nodup) (enough : size ≤ seen.length + steps) :
    Exhausted next work seen (explore next steps work seen) := by
  induction steps generalizing work seen with
  | zero =>
      -- As many blocks are seen as there are.
      refine ⟨List.Subset.refl seen, ?_, fun b member new => absurd member new⟩
      exact fun b member => all_seen size seen inside once enough b (roots b member)
  | succ steps ih =>
      unfold explore
      split
      · rename_i left
        refine ⟨List.Subset.refl seen, ?_, fun b member new => absurd member new⟩
        intro b member
        by_cases known : b ∈ seen
        · exact known
        · have all := List.dropWhile_eq_nil_iff.mp left b member
          exact absurd (List.contains_iff_mem.mp all) known
      · rename_i first rest left
        obtain ⟨new, known, split, old⟩ := dropped_while seen work rest first left
        have bound : first < size := roots first (by simp [split])
        have remaining : ∀ b ∈ next first ++ rest, b < size := by
          intro b member
          rcases List.mem_append.mp member with edge | later
          · exact edges first b edge
          · exact roots b (by simp [split, later])
        have after := ih (next first ++ rest) (first :: seen) remaining
          (List.forall_mem_cons.mpr ⟨bound, inside⟩) (List.nodup_cons.mpr ⟨new, once⟩)
          (by rw [List.length_cons]; omega)
        have keptFirst := List.cons_subset.mp after.kept
        have entered := List.append_subset.mp after.entered
        refine ⟨keptFirst.2, ?_, ?_⟩
        · rw [split, List.append_subset, List.cons_subset]
          exact ⟨fun b member => keptFirst.2 (old member), keptFirst.1, entered.2⟩
        · intro b member unseen
          by_cases same : b = first
          · exact same ▸ entered.1
          · exact after.closed b member (by simp [same, unseen])

theorem exhausted_path (work seen found : List BlockId) (exhausted : Exhausted next work seen found)
    (root b : BlockId) (way : List BlockId) (path : Path next root b way) (start : root ∈ found)
    (clear : ∀ c ∈ way, c ∉ seen) : b ∈ found := by
  induction path with
  | here a => exact start
  | step a b c way edge _ ih =>
      have parts := List.forall_mem_cons.mp clear
      exact ih (exhausted.closed a start parts.1 edge) parts.2

theorem mem_explore (size : Nat) (edges : ∀ a, ∀ b ∈ next a, b < size) (steps : Nat)
    (work seen : List BlockId) (roots : ∀ b ∈ work, b < size) (inside : ∀ b ∈ seen, b < size)
    (once : seen.Nodup) (enough : size ≤ seen.length + steps) (b : BlockId) :
    b ∈ explore next steps work seen ↔
      b ∈ seen ∨ ∃ root ∈ work, ∃ way, Path next root b way ∧ ∀ c ∈ way, c ∉ seen := by
  have exhausted := explore_exhausted next size edges steps work seen roots inside once enough
  constructor
  · exact explore_sound next steps work seen b
  · rintro (old | ⟨root, member, way, path, clear⟩)
    · exact exhausted.kept old
    · exact exhausted_path next work seen _ exhausted root b way path (exhausted.entered member) clear

end

theorem mem_reachable (f : Func) (next : BlockId → List BlockId) (roots : List BlockId)
    (edges : ∀ a, ∀ b ∈ next a, b < f.blocks.length) (inside : ∀ b ∈ roots, b < f.blocks.length) (b : BlockId) :
    b ∈ reachable f next roots ↔ ∃ root ∈ roots, ∃ way, Path next root b way := by
  have found := mem_explore next f.blocks.length edges f.blocks.length roots [] inside
    (fun _ member => (List.not_mem_nil member).elim) List.nodup_nil (Nat.le_add_left _ _) b
  unfold reachable
  simpa using found

end LoopDeps.Flow
