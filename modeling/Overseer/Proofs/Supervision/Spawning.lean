import Overseer.Proofs.Registry.Registration
import Overseer.Proofs.Tree.SignalAttempts

/-!
# What comes of starting a process

A process that has been started is the last one of the fleet, and nothing is known of it yet; if it
is to be tracked it has an entry in the registry. To start it signals nobody.
-/

namespace Overseer

open World

namespace World.System

theorem signals_exitShell (w : System) (c : ChildId) (code : Int) :
    (w.exitShell c code).signals = w.signals := by
  unfold exitShell
  split
  · rfl
  · split
    · rfl
    · exact signals_endChild _ c _

theorem signals_apply (w : System) (h : Happening) : (w.apply h).signals = w.signals := by
  cases h with
  | birth p => rfl
  | death serial child signal => exact signals_die w serial child signal
  | program c event =>
    cases event with
    | exit code => exact signals_exitShell w c code
    | _ => rfl

theorem signals_settleOrPlan (w : System) (delay : Nat) (h : Happening) :
    (w.settleOrPlan delay h).signals = w.signals := by
  unfold settleOrPlan
  split
  · exact signals_apply w h
  · rfl

theorem signals_bear (w : System) (b : Birth) : (w.bear b).signals = w.signals := by
  unfold bear
  dsimp only
  split
  · exact (signals_settleOrPlan _ _ _).trans (signals_settleOrPlan _ _ _)
  · exact signals_settleOrPlan _ _ _

theorem signals_foldl {γ : Type} {step : System → γ → System}
    (hstep : ∀ w x, (step w x).signals = w.signals) (xs : List γ) (w : System) :
    (xs.foldl step w).signals = w.signals := by
  induction xs generalizing w with
  | nil => rfl
  | cons x xs ih => exact (ih (step w x)).trans (hstep w x)

theorem signals_spawn (w : System) (launch : Launch) : (w.spawn launch).1.signals = w.signals := by
  unfold spawn
  rcases w.programs with _ | ⟨next, rest⟩
  · rfl
  · cases next with
    | refused reason => rfl
    | program p =>
      refine (signals_foldl (fun w x => signals_settleOrPlan w x.1 _) p.events _).trans ?_
      exact signals_foldl signals_bear p.family _

end World.System

namespace Fleet

variable {f g : Fleet} {settings : Settings} {request : Request} {held : ProcessId → Bool}
  {track : Bool} {id : ProcessId}

structure Spawned (f g : Fleet) (id : ProcessId) : Prop where
  id_eq : id = f.processes.size
  fresh : ∃ p, g.process? id = some p ∧ p.Fresh
  signals : g.scene.system.signals = f.scene.system.signals

theorem Spawned.process (h : Spawned f g id) : f.process? id = none :=
  Array.getElem?_eq_none (Nat.le_of_eq h.id_eq.symm)

theorem spawned_start (h : f.start settings request = (g, .ok id)) : Spawned f g id := by
  unfold start at h
  dsimp only at h
  split at h
  · cases h
  next launch hlaunch =>
    unfold Supervised.spawn at h
    split at h
    · cases h
    next scene p hs =>
      obtain ⟨rfl, hid⟩ := Prod.mk.inj h
      obtain rfl := Except.ok.inj hid
      split at hs
      · have hsignals := System.signals_spawn f.scene.system launch
        split at hs
        · cases hs
        next system child hspawn =>
          rw [hspawn] at hsignals
          obtain ⟨rfl, hp⟩ := Prod.mk.inj hs
          obtain rfl := Except.ok.inj hp
          exact ⟨rfl, ⟨_, Array.getElem?_push_size, rfl, rfl, rfl, rfl⟩, hsignals⟩
      · cases hs

theorem process?_register (f : Fleet) (standing : ProcessId → Standing) (id other : ProcessId) :
    (f.register standing id).process? other = f.process? other := by
  unfold register
  split <;> rfl

theorem system_register (f : Fleet) (standing : ProcessId → Standing) (id : ProcessId) :
    (f.register standing id).scene.system = f.scene.system := by
  unfold register
  split <;> rfl

theorem spawned_startTracked (h : f.startTracked settings held request track = (g, .ok id)) :
    Spawned f g id ∧ (track = true → g.Tracks id) := by
  unfold startTracked at h
  split at h
  · cases h
  next started new hstart =>
    have hspawned := spawned_start hstart
    obtain ⟨hg, hid⟩ := Prod.mk.inj h
    obtain rfl := Except.ok.inj hid
    obtain ⟨p, hp, hfresh⟩ := hspawned.fresh
    cases track with
    | false =>
      obtain rfl : started = g := hg
      exact ⟨hspawned, nofun⟩
    | true =>
      obtain rfl : started.register _ new = g := hg
      refine ⟨⟨hspawned.id_eq, ⟨p, ?_, hfresh⟩, ?_⟩, fun _ => tracks_register hp _⟩
      · rw [process?_register, hp]
      · rw [system_register, hspawned.signals]

end Fleet

end Overseer
