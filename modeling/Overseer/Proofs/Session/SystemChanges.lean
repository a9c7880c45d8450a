import Overseer.Proofs.Supervision.Programs

/-!
# What goes on in a system

Whatever is done in a session does no more to its system than let time pass, read pipes, signal
processes and start programs. A relation that these few things keep up (`System.Ongoing`) holds
between the systems of any two moments of a session.
-/

namespace Overseer

open World Timeline

namespace Fleet

/-- What holds of a system whatever is read holds of it when all output has been read. -/
theorem system_readOutputs {P : System → Prop} (hP : ∀ w c, P w → P (w.emptyPipe c)) {f : Fleet}
    (h : P f.scene.system) : P f.readOutputs.scene.system := by
  have hread : ∀ (p : Supervised) (s : Scene), P s.system → P (p.readOutput s).1.system := by
    intro p s hs
    unfold Supervised.readOutput
    split
    · split
      · exact hs
      · exact hP _ _ hs
    · exact hs
  have hall : ∀ (ids : List ProcessId) (f : Fleet), P f.scene.system →
      P (f.stepEach Supervised.readOutput ids).scene.system := by
    intro ids
    induction ids with
    | nil => exact fun f hf => hf
    | cons id ids ih =>
      intro f hf
      refine ih (stepProcess Supervised.readOutput f id) ?_
      unfold stepProcess
      split
      · exact hf
      · exact hread _ _ hf
  exact hall _ f h

theorem system_watchEnds (f : Fleet) : f.watchEnds.scene.system = f.scene.system := by
  have hall : ∀ {step : Supervised → Scene → Scene × Supervised},
      (∀ p s, (step p s).1.system = s.system) → ∀ (ids : List ProcessId) (f : Fleet),
        (f.stepEach step ids).scene.system = f.scene.system := by
    intro step hstep ids
    induction ids with
    | nil => exact fun f => rfl
    | cons id ids ih =>
      intro f
      refine (ih (stepProcess step f id)).trans ?_
      unfold stepProcess
      split
      · rfl
      · exact hstep _ _
  exact (hall system_reportEnd _ _).trans
    ((hall system_giveUpReading _ _).trans (hall system_noticeExit _ f))

end Fleet

/-- A relation between systems that is kept up by everything that is done to one. -/
structure World.System.Ongoing (R : System → System → Prop) : Prop where
  refl : ∀ w, R w w
  trans : ∀ {a b c}, R a b → R b c → R a c
  advance : ∀ w t, R w (w.advance t)
  emptyPipe : ∀ w c, R w (w.emptyPipe c)
  signalProcess : ∀ w p signal, R w (w.signalProcess p signal).1
  signalGroup : ∀ w pgid signal, R w (w.signalGroup pgid signal).1
  spawn : ∀ w launch, R w (w.spawn launch).1

namespace World.System.Ongoing

variable {R : System → System → Prop}

theorem start (hR : Ongoing R) (f : Fleet) (settings : Settings) (request : Request) :
    R f.scene.system (f.start settings request).1.scene.system := by
  rcases f.start_cases settings request with
    hs | ⟨launch, ⟨reason, -, hs⟩ | ⟨p, notes, -, -, -, -, hs⟩⟩
  · rw [hs]
    exact hR.refl _
  · rw [hs]
    exact hR.spawn _ launch
  · rw [hs]
    exact hR.spawn _ launch

theorem calls (hR : Ongoing R) {k : Prop} {f g : Fleet} (h : Fleet.Calls k f g) :
    R f.scene.system g.scene.system := by
  induction h with
  | refl => exact hR.refl _
  | report _ _ ih => exact ih
  | signalProcess p signal _ ih => exact hR.trans ih (hR.signalProcess _ p signal)
  | signalGroup pgid signal _ ih => exact hR.trans ih (hR.signalGroup _ pgid signal)
  | setLog _ _ _ ih => exact ih
  | registry _ _ ih => exact ih
  | start settings request _ _ ih => exact hR.trans ih (hR.start _ settings request)

theorem readOutputs (hR : Ongoing R) (f : Fleet) :
    R f.scene.system f.readOutputs.scene.system :=
  Fleet.system_readOutputs (P := R f.scene.system) (fun w c h => hR.trans h (hR.emptyPipe w c))
    (hR.refl _)

theorem watchEnds (hR : Ongoing R) (f : Fleet) : R f.scene.system f.watchEnds.scene.system := by
  rw [Fleet.system_watchEnds]
  exact hR.refl _

/-- What is kept up holds between the systems of any two moments of a session. -/
theorem later (hR : Ongoing R) {t u : Timeline Session Session.Activity Session.Result}
    (h : Later Session.machinery t u) :
    R t.state.fleet.scene.system u.state.fleet.scene.system := by
  refine Later.induction (m := Session.machinery)
    (P := fun u => R t.state.fleet.scene.system u.state.fleet.scene.system)
    ?_ ?_ ?_ ?_ ?_ (hR.refl _) h
  · exact fun u step hu => hR.trans hu (hR.calls (Session.calls_launch u step))
  · exact fun u moment hu => hR.trans hu (hR.advance _ moment)
  · exact fun u hu => hR.trans hu (hR.readOutputs _)
  · exact fun u hu => hR.trans hu (hR.watchEnds _)
  · exact fun u id hu => hR.trans hu (hR.calls (Session.calls_pollTask u id))

end World.System.Ongoing

end Overseer
