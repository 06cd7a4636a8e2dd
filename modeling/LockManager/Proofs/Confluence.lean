/-! Steps that may be taken in any order. Where two different steps from one state can each be
followed by one more step to a common state, all ways of going on to the end take the same number
of steps and end in the same state. -/
namespace LockManager

variable {State : Type} {step : State → State → Prop} {Good : State → Prop}

/-- A number of steps, one after another. -/
inductive Steps (step : State → State → Prop) : Nat → State → State → Prop
  | refl (state : State) : Steps step 0 state state
  | next {count : Nat} {first second last : State} (head : step first second)
      (rest : Steps step count second last) : Steps step (count + 1) first last

def Final (step : State → State → Prop) (state : State) : Prop := ∀ next, ¬ step state next

/-- However the steps from the first state are chosen, they come to an end, and always to the last
one. -/
def SettlesTo (step : State → State → Prop) (first last : State) : Prop :=
  ∃ length, Steps step length first last ∧ Final step last ∧
    ∀ count now, Steps step count first now → count ≤ length ∧ (Final step now → now = last)

theorem Steps.append {n m : Nat} {first second last : State} (start : Steps step n first second)
    (rest : Steps step m second last) : Steps step (n + m) first last := by
  induction start with
  | refl => simpa using rest
  | next head tail ih =>
    rw [Nat.add_right_comm]
    exact .next head (ih rest)

theorem Steps.eq_of_final {count : Nat} {first last : State} (path : Steps step count first last)
    (final : Final step first) : first = last := by
  cases path with
  | refl => rfl
  | next head _ => exact absurd head (final _)

theorem SettlesTo.unique {first last other : State} (one : SettlesTo step first last)
    (two : SettlesTo step first other) : last = other := by
  obtain ⟨_, _, _, ends⟩ := two
  obtain ⟨length, path, final, -⟩ := one
  exact (ends length last path).2 final

/-! ### Two sides -/

/-- Related states stay related, as each step on the one side is answered on the other. -/
def Answers (step : State → State → Prop) (Related : State → State → Prop) : Prop :=
  ∀ {state other next : State}, Related state other → step state next →
    ∃ after, step other after ∧ Related next after

variable {Related : State → State → Prop}

theorem Steps.answered (answers : Answers step Related) {count : Nat} {first last other : State}
    (related : Related first other) (path : Steps step count first last) :
    ∃ after, Steps step count other after ∧ Related last after := by
  induction path generalizing other with
  | refl => exact ⟨other, .refl other, related⟩
  | next head rest ih =>
    obtain ⟨middle, taken, related⟩ := answers related head
    obtain ⟨after, path, related⟩ := ih related
    exact ⟨after, .next taken path, related⟩

/-- Where related states settle is related. -/
theorem SettlesTo.related (forth : Answers step Related)
    (back : Answers step fun state other => Related other state)
    {first last start after : State} (related : Related first start)
    (one : SettlesTo step first last) (two : SettlesTo step start after) : Related last after := by
  obtain ⟨count, path, final, -⟩ := one
  obtain ⟨_, _, _, ends⟩ := two
  obtain ⟨now, taken, related⟩ := path.answered forth related
  have rest : Final step now := by
    intro next head
    obtain ⟨further, more, -⟩ := back related head
    exact final further more
  exact (ends count now taken).2 rest ▸ related

/-! ### Diamonds -/

/-- Two steps from a good state agree, or meet one step later. -/
def Diamond (step : State → State → Prop) (Good : State → Prop) : Prop :=
  ∀ state left right, Good state → step state left → step state right →
    left = right ∨ ∃ common, step left common ∧ step right common

section
variable (keeps : ∀ state next, Good state → step state next → Good next)
  (diamond : Diamond step Good)
include keeps diamond

/-- Any first step leaves one step less to the end. -/
theorem Steps.after_step {count : Nat} {first other last : State} (good : Good first)
    (path : Steps step (count + 1) first last) (final : Final step last)
    (head : step first other) : Steps step count other last := by
  induction count generalizing first other with
  | zero =>
    cases path with
    | next own rest =>
      cases rest
      rcases diamond first _ _ good own head with rfl | ⟨common, further, -⟩
      · exact .refl _
      · exact absurd further (final common)
  | succ count ih =>
    cases path with
    | @next _ _ second _ own rest =>
      -- The two first steps meet one step later, and from there the same number is left.
      rcases diamond first _ _ good own head with rfl | ⟨common, further, meets⟩
      · exact rest
      · exact .next meets (ih (keeps first second good own) rest further)

theorem Steps.settlesTo {length : Nat} {first last : State} (good : Good first)
    (path : Steps step length first last) (final : Final step last) :
    SettlesTo step first last := by
  refine ⟨length, path, final, fun count now taken => ?_⟩
  have remaining : ∃ left, count + left = length ∧ Steps step left now last := by
    induction taken generalizing length with
    | refl => exact ⟨length, Nat.zero_add _, path⟩
    | @next count first second now head rest ih =>
      cases length with
      | zero =>
        cases path
        exact absurd head (final second)
      | succ length =>
        have shorter := Steps.after_step keeps diamond good path final head
        obtain ⟨left, total, rest⟩ := ih (keeps _ _ good head) shorter
        exact ⟨left, by omega, rest⟩
  obtain ⟨left, total, rest⟩ := remaining
  exact ⟨by omega, rest.eq_of_final⟩

end
end LockManager
