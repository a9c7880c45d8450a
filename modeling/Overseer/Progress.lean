/-!
# Progress

What comes of letting something go on: it has more to do, or it is done with a result.
-/

namespace Overseer

inductive Progress (α β : Type) where
  | pending (rest : α)
  | done (result : β)
  deriving DecidableEq, Repr

def Progress.map {α β γ δ : Type} (f : α → γ) (g : β → δ) : Progress α β → Progress γ δ
  | .pending rest => .pending (f rest)
  | .done result => .done (g result)

end Overseer
