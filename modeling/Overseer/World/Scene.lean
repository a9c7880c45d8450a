import Overseer.World.Calls

/-!
# Scenes

A system together with the journal of what the library has reported about it.
-/

namespace Overseer.World

structure Scene where
  system : System := {}
  journal : Journal := #[]
  deriving Repr

namespace Scene

def opening (system : System) (others : List Birth) : Scene :=
  { system := others.foldl System.bear system }

def now (s : Scene) : Instant := s.system.now

def report (s : Scene) (notes : List Note) : Scene :=
  { s with journal := s.journal.add s.now notes }

def advance (s : Scene) (t : Instant) : Scene := { s with system := s.system.advance t }

end Scene

end Overseer.World
