import Monkey.Proofs.Builtin

/-! # Invariants of the world

Computations are put together from a few steps. What each of these keeps, a computation keeps.
-/

namespace Monkey

section

variable {ε ε' α β : Type} {inv : World → Prop} {computation : ExceptT ε Eval α}

/-- The computation keeps an invariant, whether it fails or not. -/
def Preserves (inv : World → Prop) (computation : ExceptT ε Eval α) : Prop :=
  ∀ world result world', inv world → computation.run.run world = some (result, world') → inv world'

namespace Preserves

theorem pure (a : α) : Preserves inv (Pure.pure a : ExceptT ε Eval α) := by
  rintro world result world' hinv ⟨⟩
  exact hinv

theorem throw (failure : ε) : Preserves inv (MonadExcept.throw failure : ExceptT ε Eval α) := by
  rintro world result world' hinv ⟨⟩
  exact hinv

theorem get : Preserves inv (MonadState.get : ExceptT ε Eval World) := by
  rintro world result world' hinv ⟨⟩
  exact hinv

theorem bind {next : α → ExceptT ε Eval β} (hfirst : Preserves inv computation)
    (hnext : ∀ a, Preserves inv (next a)) : Preserves inv (computation >>= next) := by
  intro world result world' hinv hrun
  rw [run_bind] at hrun
  rcases hmiddle : computation.run.run world with _ | ⟨failure | a, middle⟩
  · rw [hmiddle] at hrun
    cases hrun
  · rw [hmiddle] at hrun
    cases hrun
    exact hfirst _ _ _ hinv hmiddle
  · rw [hmiddle] at hrun
    exact hnext a _ _ _ (hfirst _ _ _ hinv hmiddle) hrun

theorem adapt (hcomputation : Preserves inv computation) (f : ε → ε') :
    Preserves inv (computation.adapt f) := by
  intro world result world' hinv hrun
  change (Except.mapError f <$> computation.run).run world = _ at hrun
  rw [StateT.run_map] at hrun
  obtain ⟨⟨result', _⟩, hrun', hreply⟩ := Option.map_eq_some_iff.mp hrun
  cases hreply
  exact hcomputation _ _ _ hinv hrun'

theorem lift {evaluation : Eval α}
    (hevaluation : ∀ world a world', inv world → evaluation.run world = some (a, world') →
      inv world') : Preserves inv (ExceptT.lift evaluation : ExceptT ε Eval α) := by
  intro world result world' hinv hrun
  rw [run_lift] at hrun
  obtain ⟨⟨a, _⟩, hrun', hreply⟩ := Option.map_eq_some_iff.mp hrun
  cases hreply
  exact hevaluation _ _ _ hinv hrun'

theorem text (value : Value) :
    Preserves inv (ExceptT.lift (Eval.text value) : ExceptT ε Eval String) := by
  refine lift fun world text world' hinv hrun => ?_
  rw [run_text] at hrun
  obtain ⟨_, -, hreply⟩ := Option.map_eq_some_iff.mp hrun
  cases hreply
  exact hinv

/-- Sequences keep what their computations keep. -/
theorem sequential :
    Sequential fun α (computation : ExceptT ε Eval α) => Preserves inv computation where
  pure := pure
  bind := bind

/-- What writing keeps, everything that is printed keeps. -/
theorem printing (hwrite : ∀ text, Preserves inv (Printing.write text)) :
    Printing.Rules fun _ printing => Preserves inv printing where
  toSequential := sequential
  write := hwrite
  text := text
  contents _ := lift fun | _, _, _, hinv, rfl => hinv
  levels := lift fun | _, _, _, hinv, rfl => hinv
  endless := lift nofun

end Preserves

end

end Monkey
