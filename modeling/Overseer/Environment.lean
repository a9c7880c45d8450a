/-!
# Environments

The variables a process is given, each with one value, in the order they were first set.
-/

namespace Overseer

abbrev Environment := List (String × String)

namespace Environment

def get? (env : Environment) (name : String) : Option String := env.lookup name

/-- The environment with a variable set. A variable that was set keeps its place. -/
def set (env : Environment) (name value : String) : Environment :=
  match env with
  | [] => [(name, value)]
  | (n, v) :: rest => if n = name then (name, value) :: rest else (n, v) :: set rest name value

def overlay (env upper : Environment) : Environment :=
  upper.foldl (fun env (name, value) => set env name value) env

theorem get?_cons (env : Environment) (name value other : String) :
    get? ((name, value) :: env) other = if other = name then some value else env.get? other := by
  by_cases h : other = name
  · subst h
    simp [get?]
  · have hb : (other == name) = false := beq_false_of_ne h
    simp [get?, List.lookup_cons, hb, h]

theorem get?_set (env : Environment) (name value other : String) :
    (env.set name value).get? other = if other = name then some value else env.get? other := by
  induction env with
  | nil => rw [set, get?_cons]
  | cons entry rest ih =>
    obtain ⟨n, v⟩ := entry
    rw [set]
    split
    · next h =>
      subst h
      rw [get?_cons, get?_cons]
      split <;> rfl
    · next h =>
      rw [get?_cons, get?_cons, ih]
      split
      · next ho =>
        subst ho
        rw [if_neg h]
      · rfl

end Environment

end Overseer
